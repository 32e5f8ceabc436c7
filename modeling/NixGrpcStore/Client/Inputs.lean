import NixGrpcStore.Client.Runs

/-!
# Builds run on finished inputs

The inputs of a job are those that were named for it.  A job that waits will be told by each of its
inputs that has not ended, and remembers one that failed; a job that may be built has seen all of
them succeed.  So a job ends as `dependencyFailed` exactly when one of its inputs failed.
-/

namespace NixGrpcStore.Exec

open List (mem_append mem_cons mem_cons_of_mem mem_map mem_singleton)
open Executor Tally

variable {strict : Prop} {S S' : Stage}

/-- A job is done, with or without success. -/
def Ended (exe : Executor) (succeeded : Bool) (jid : JobId) : Prop :=
  ∃ result, exe.stateAt jid = some (.done result) ∧ result.succeeded = succeeded

/-- Nothing was stopped, and the scheduler was not given up. -/
def Undisturbed (exe : Executor) : Prop := exe.stopping = false ∧ exe.abandoned = false

/-- A job is yet to be told that an input ended. -/
def Stage.Awaits (S : Stage) (jid input : JobId) : Prop :=
  WaitsFor S.exe jid input ∨ ∃ owed ∈ S.owed, owed.dep = jid ∧ owed.ended = input

/-- What a job knows of its inputs. -/
structure Told (S : Stage) (jid : JobId) (state : JobState) (failedInput : Option JobId) : Prop where
  failed : ∀ input, failedInput = some input → (jid, input) ∈ S.named ∧ Ended S.exe false input
  free : state.kind ≠ .blocked → state.kind ≠ .done →
    failedInput = none ∧ ∀ input, (jid, input) ∈ S.named → Ended S.exe true input
  blocked : state.kind = .blocked → jid ∉ S.thrown → ∀ input, (jid, input) ∈ S.named →
    S.Awaits jid input ∨ Ended S.exe true input ∨ failedInput.isSome
  done : ∀ result, state = .done result → Undisturbed S.exe →
    (result.outcome = .dependencyFailed → failedInput.isSome) ∧
      (result.outcome ≠ .dependencyFailed → ∀ input, (jid, input) ∈ S.named → Ended S.exe true input)
  work : ∀ result, (jid, result) ∈ S.work → Undisturbed S.exe →
    (state.kind = .blocked → result.outcome = .dependencyFailed ∧ failedInput.isSome) ∧
      (state.kind ≠ .blocked → state.kind ≠ .done → result.outcome ≠ .dependencyFailed)

/-- The invariant of what jobs know of their inputs. -/
structure Fed (S : Stage) : Prop where
  edges : ∀ jid input, WaitsFor S.exe jid input → (jid, input) ∈ S.named
  owed : ∀ owed ∈ S.owed, (owed.dep, owed.ended) ∈ S.named ∧ Ended S.exe (!owed.failed) owed.ended
  bound : ∀ edge ∈ S.named, edge.1 < S.exe.jobs.length
  told : ∀ jid job, S.exe.jobs[jid]? = some job → Told S jid job.state job.failedInput

/-- Nothing that a job knows of its inputs changes. -/
structure Alike (S S' : Stage) (jid : JobId) (state : JobState) : Prop where
  named : ∀ input, (jid, input) ∈ S'.named → (jid, input) ∈ S.named
  thrown : jid ∈ S.thrown → jid ∈ S'.thrown
  awaits : state.kind = .blocked → ∀ input, S.Awaits jid input → S'.Awaits jid input
  work : ∀ result, (jid, result) ∈ S'.work → (jid, result) ∈ S.work

/-- What the moves of a call leave alone, for what is said about inputs. -/
structure Onward (S S' : Stage) : Prop where
  later : Later S S'
  calm : Undisturbed S'.exe → Undisturbed S.exe

theorem Onward.named (onward : Onward S S') {edge : JobId × JobId} (inside : edge ∈ S.named) :
    edge ∈ S'.named := by
  obtain ⟨more, named_eq, -⟩ := onward.later.waits
  rw [named_eq]
  exact List.mem_append_left _ inside

theorem Onward.ended (onward : Onward S S') {succeeded : Bool} {jid : JobId}
    (ended : Ended S.exe succeeded jid) : Ended S'.exe succeeded jid := by
  obtain ⟨result, state_eq, success⟩ := ended
  exact ⟨result, onward.later.done jid result state_eq, success⟩

theorem Told.alike {jid : JobId} {state : JobState} {failedInput : Option JobId}
    (told : Told S jid state failedInput) (onward : Onward S S') (alike : Alike S S' jid state) :
    Told S' jid state failedInput where
  failed := by
    intro input failed
    obtain ⟨inside, ended⟩ := told.failed input failed
    exact ⟨onward.named inside, onward.ended ended⟩
  free := by
    intro unblocked live
    obtain ⟨sound, succeeded⟩ := told.free unblocked live
    exact ⟨sound, fun input inside => onward.ended (succeeded input (alike.named input inside))⟩
  blocked := by
    intro blocked kept input inside
    rcases told.blocked blocked (fun threw => kept (alike.thrown threw)) input (alike.named input inside)
      with awaits | ended | failed
    · exact .inl (alike.awaits blocked input awaits)
    · exact .inr (.inl (onward.ended ended))
    · exact .inr (.inr failed)
  done := by
    intro result state_eq calm
    obtain ⟨failed, succeeded⟩ := told.done result state_eq (onward.calm calm)
    exact ⟨failed, fun own input inside => onward.ended (succeeded own input (alike.named input inside))⟩
  work := fun result inside calm => told.work result (alike.work result inside) (onward.calm calm)

theorem Fed.edges_later (fed : Fed S) (later : Later S S') (jid input : JobId)
    (now : WaitsFor S'.exe jid input) : (jid, input) ∈ S'.named := by
  obtain ⟨more, named_eq, waits⟩ := later.waits
  rw [named_eq, mem_append]
  rcases waits jid input now with before | new
  · exact .inl (fed.edges jid input before)
  · exact .inr new

/-- Only one job is affected. -/
theorem Fed.write {jid : JobId} {job' : Job} (fed : Fed S) (onward : Onward S S')
    (found' : S'.exe.jobs[jid]? = some job')
    (others : ∀ other x, other ≠ jid → S'.exe.jobs[other]? = some x →
      ∃ y, S.exe.jobs[other]? = some y ∧ x.state = y.state ∧ x.failedInput = y.failedInput)
    (length_le : S.exe.jobs.length ≤ S'.exe.jobs.length)
    (named : ∀ edge ∈ S'.named, edge ∈ S.named ∨ edge.1 = jid)
    (owed : ∀ owed ∈ S'.owed, owed ∈ S.owed ∨
      (owed.dep, owed.ended) ∈ S'.named ∧ Ended S'.exe (!owed.failed) owed.ended)
    (alike : ∀ other state, other ≠ jid → Alike S S' other state)
    (own : Told S' jid job'.state job'.failedInput) : Fed S' where
  edges := fed.edges_later onward.later
  owed := by
    intro entry inside
    rcases owed entry inside with old | new
    · obtain ⟨inside, ended⟩ := fed.owed entry old
      exact ⟨onward.named inside, onward.ended ended⟩
    · exact new
  bound := by
    intro edge inside
    rcases named edge inside with old | rfl
    · exact (fed.bound edge old).trans_le length_le
    · exact lt_length found'
  told := by
    intro other x found
    by_cases this : other = jid
    · subst this
      cases found'.symm.trans found
      exact own
    · obtain ⟨y, found_y, state_eq, failed_eq⟩ := others other x this found
      rw [state_eq, failed_eq]
      exact (fed.told other y found_y).alike onward (alike other _ this)

/-- No job is affected. -/
theorem Fed.keep (fed : Fed S) (onward : Onward S S')
    (jobs : ∀ (jid : JobId) (x : Job), S'.exe.jobs[jid]? = some x →
      ∃ y, S.exe.jobs[jid]? = some y ∧ x.state = y.state ∧ x.failedInput = y.failedInput)
    (length_eq : S'.exe.jobs.length = S.exe.jobs.length) (named_eq : S'.named = S.named)
    (owed : ∀ owed ∈ S'.owed, owed ∈ S.owed)
    (alike : ∀ jid job, S.exe.jobs[jid]? = some job → Alike S S' jid job.state) : Fed S' where
  edges := fed.edges_later onward.later
  owed := by
    intro entry inside
    obtain ⟨inside, ended⟩ := fed.owed entry (owed entry inside)
    exact ⟨onward.named inside, onward.ended ended⟩
  bound := by
    rw [named_eq, length_eq]
    exact fed.bound
  told := by
    intro jid x found
    obtain ⟨y, found_y, state_eq, failed_eq⟩ := jobs jid x found
    rw [state_eq, failed_eq]
    exact (fed.told jid y found_y).alike onward (alike jid y found_y)

/-- As `Fed.write`, for a job that is overwritten and keeps its dependants. -/
theorem Fed.set {jid : JobId} {job job' : Job} (fed : Fed S) (onward : Onward S S')
    (found : S.exe.jobs[jid]? = some job) (jobs_eq : S'.exe.jobs = S.exe.jobs.set jid job')
    (named : ∀ edge ∈ S'.named, edge ∈ S.named ∨ edge.1 = jid)
    (owed : ∀ owed ∈ S'.owed, owed ∈ S.owed ∨
      (owed.dep, owed.ended) ∈ S'.named ∧ Ended S'.exe (!owed.failed) owed.ended)
    (alike : ∀ other state, other ≠ jid → Alike S S' other state)
    (own : Told S' jid job'.state job'.failedInput) : Fed S' := by
  have found' : S'.exe.jobs[jid]? = some job' := by
    rw [jobs_eq]
    exact List.getElem?_set_self (lt_length found)
  refine fed.write onward found' ?_ (by simp [jobs_eq]) named owed alike own
  intro other x this found_x
  rw [jobs_eq, List.getElem?_set_ne (Ne.symm this)] at found_x
  exact ⟨x, found_x, rfl, rfl⟩

/-- A write that keeps the dependants of a job that is not done keeps who waits for whom. -/
theorem waitsFor_set {exe exe' : Executor} {jid : JobId} {job job' : Job}
    (found : exe.jobs[jid]? = some job) (jobs_eq : exe'.jobs = exe.jobs.set jid job')
    (deps_eq : job'.dependants = job.dependants) (live' : job'.state.kind ≠ .done) {waiter input : JobId}
    (waits : WaitsFor exe waiter input) : WaitsFor exe' waiter input := by
  obtain ⟨needed, needs, live, inside⟩ := waits
  by_cases this : input = jid
  · subst this
    cases found.symm.trans needs
    refine ⟨job', ?_, live', deps_eq ▸ inside⟩
    rw [jobs_eq]
    exact List.getElem?_set_self (lt_length found)
  · refine ⟨needed, ?_, live, inside⟩
    rw [jobs_eq, List.getElem?_set_ne (Ne.symm this)]
    exact needs

/-- A job that awaits an input counts it. -/
theorem due_ne_zero {jid input : JobId} (awaits : S.Awaits jid input) : S.due jid ≠ 0 := by
  rcases awaits with ⟨needed, needs, live, inside⟩ | ⟨owed, inside, rfl, -⟩
  · have counted := le_tally (f := countsFor jid) needs
    have listed : 0 < needed.dependants.count jid := List.count_pos_iff.mpr inside
    rw [countsFor, if_neg live] at counted
    rw [Stage.due]
    omega
  · have listed : 0 < (S.owed.map Owed.dep).count owed.dep :=
      List.count_pos_iff.mpr (mem_map.mpr ⟨owed, inside, rfl⟩)
    rw [Stage.due]
    omega

/-! ## One move -/

namespace Fed

variable {jid input : JobId} {job needed : Job}

section Turns

variable (fed : Fed S)
include fed

theorem turn {job' : Job} {exe : Executor} (turned : Turn strict S.exe exe jid job job')
    (onward : Onward S { S with exe := exe }) : Fed { S with exe := exe } := by
  have alike : ∀ other state, Alike S { S with exe := exe } other state := by
    refine fun other state => ⟨fun _ => id, id, fun _ input => ?_, fun _ => id⟩
    exact Or.imp_left (waitsFor_set turned.found turned.jobs_eq turned.deps_eq turned.free'.2)
  refine fed.set onward turned.found turned.jobs_eq (fun _ => .inl) (fun _ => .inl)
    (fun other state _ => alike other state) ?_
  have told := fed.told jid job turned.found
  rw [turned.failedInput_eq]
  refine ⟨(told.alike onward (alike jid _)).failed, fun _ _ => ?_, fun blocked => absurd blocked turned.free'.1,
    fun result state_eq => absurd (by rw [state_eq]; rfl) turned.free'.2, fun result inside calm =>
      ⟨fun blocked => ?_, fun _ _ => ?_⟩⟩
  · exact (told.alike onward (alike jid _)).free turned.free.1 turned.free.2
  · exact absurd blocked turned.free'.1
  · exact (told.work result inside (onward.calm calm)).2 turned.free.1 turned.free.2

theorem idle {exe : Executor} (idle : Idle strict S.exe exe)
    (onward : Onward S { S with exe := exe }) : Fed { S with exe := exe } := by
  refine fed.keep onward ?_ ?_ rfl (fun _ => id) ?_
  · intro jid x found
    obtain ⟨job, found', state_eq, -, failed_eq⟩ := idle.found found
    exact ⟨job, found', state_eq, failed_eq⟩
  · simpa using congrArg List.length idle.jobs_eq
  · refine fun jid job _ => ⟨fun _ => id, id, fun _ input => Or.imp_left ?_, fun _ => id⟩
    rintro ⟨needed, needs, live, inside⟩
    obtain ⟨needed', needs', state_eq, deps_eq⟩ := idle.found_after needs
    exact ⟨needed', needs', state_eq ▸ live, deps_eq ▸ inside⟩

theorem begin {result : Done}
    (found : S.exe.jobs[jid]? = some job) (free : job.state.kind ≠ .blocked ∧ job.state.kind ≠ .done)
    (own : result.outcome ≠ .dependencyFailed) (onward : Onward S { S with work := [(jid, result)] }) :
    Fed { S with work := [(jid, result)] } := by
  have told := fed.told jid job found
  refine fed.write onward found (fun other x _ found_x => ⟨x, found_x, rfl, rfl⟩) le_rfl (fun _ => .inl)
    (fun _ => .inl) ?_ ⟨told.failed, told.free, told.blocked, told.done, ?_⟩
  · intro other state this
    refine ⟨fun _ => id, id, fun _ _ => id, fun its inside => ?_⟩
    exact absurd (Prod.mk.inj (mem_singleton.mp inside)).1 this
  · intro its inside _
    obtain ⟨-, rfl⟩ := Prod.mk.inj (mem_singleton.mp inside)
    exact ⟨fun blocked => absurd blocked free.1, fun _ _ => own⟩

theorem settle {result : Done} {work : Work}
    (waits : S.work = (jid, result) :: work) (told : S.owed = [])
    (found : S.exe.jobs[jid]? = some job) (live : job.state.kind ≠ .done)
    (onward : Onward S
      { S with
        exe := S.exe.finish jid result
        work := work
        owed := job.dependants.map fun dep => ⟨dep, jid, !result.succeeded⟩ }) :
    Fed { S with
      exe := S.exe.finish jid result
      work := work
      owed := job.dependants.map fun dep => ⟨dep, jid, !result.succeeded⟩ } := by
  have own := fed.told jid job found
  have jobs_eq : (S.exe.finish jid result).jobs =
      S.exe.jobs.set jid { job with followed := false, state := .done result } := by
    rw [finish_eq found]
  have ended : (S.exe.finish jid result).stateAt jid = some (.done result) := by
    simp [stateAt, finish_found found]
  refine fed.set onward found jobs_eq (fun _ => .inl) ?_ ?_ ?_
  · intro owed inside
    obtain ⟨dep, dependant, rfl⟩ := mem_map.mp inside
    exact .inr ⟨fed.edges dep jid ⟨job, found, live, dependant⟩, result, ended, by simp⟩
  · intro other state this
    refine ⟨fun _ => id, id, fun _ input => ?_, fun its inside => ?_⟩
    · -- who waited for this job is owed the news now
      rintro (⟨needed, needs, needed_live, inside⟩ | ⟨owed, inside, -⟩)
      · by_cases same : input = jid
        · subst same
          cases found.symm.trans needs
          exact .inr ⟨_, mem_map.mpr ⟨other, inside, rfl⟩, rfl, rfl⟩
        · refine .inl ⟨needed, ?_, needed_live, inside⟩
          rw [jobs_eq, List.getElem?_set_ne (Ne.symm same)]
          exact needs
      · simp [told] at inside
    · rw [waits]
      exact mem_cons_of_mem _ inside
  · refine ⟨?_, by simp, by simp, ?_, by simp⟩
    · intro input failed
      obtain ⟨inside, ended⟩ := own.failed input failed
      exact ⟨inside, onward.ended ended⟩
    · intro its state_eq calm
      obtain rfl : result = its := by simpa using state_eq
      have work_own := own.work result (by simp [waits]) (onward.calm calm)
      by_cases blocked : job.state.kind = .blocked
      · obtain ⟨failed, some_failed⟩ := work_own.1 blocked
        exact ⟨fun _ => some_failed, fun other => absurd failed other⟩
      · have succeeded := (own.free blocked live).2
        exact ⟨fun failed => absurd failed (work_own.2 blocked live),
          fun _ input inside => onward.ended (succeeded input inside)⟩

theorem pass {owed : Owed} {rest : List Owed} (owes : S.owed = owed :: rest)
    (unblocked : ∀ job, S.exe.jobs[owed.dep]? = some job → job.state.kind ≠ .blocked)
    (onward : Onward S { S with owed := rest }) : Fed { S with owed := rest } := by
  refine fed.keep onward (fun jid x found => ⟨x, found, rfl, rfl⟩) rfl rfl ?_ ?_
  · intro entry inside
    rw [owes]
    exact mem_cons_of_mem _ inside
  · refine fun jid job found => ⟨fun _ => id, id, fun blocked input => Or.imp_right ?_, fun _ => id⟩
    rintro ⟨entry, inside, rfl, ended⟩
    rw [owes, mem_cons] at inside
    rcases inside with rfl | inside
    · exact absurd blocked (unblocked job found)
    · exact ⟨entry, inside, rfl, ended⟩

theorem tell {owed : Owed} {rest : List Owed} {dnt : Job} {waiting : ℕ} (onward : Onward S S')
    (owes : S.owed = owed :: rest) (found : S.exe.jobs[owed.dep]? = some dnt)
    (state_eq : dnt.state = .blocked waiting)
    (jobs_eq : S'.exe.jobs = S.exe.jobs.set owed.dep (Executor.tell owed.ended owed.failed dnt waiting))
    (owed_eq : S'.owed = rest) (work_eq : S'.work = S.work) (named_eq : S'.named = S.named)
    (thrown_eq : S'.thrown = S.thrown) : Fed S' := by
  have own := fed.told _ dnt found
  obtain ⟨named, ended⟩ := fed.owed owed (by simp [owes])
  have blocked : dnt.state.kind = .blocked := by simp [state_eq]
  -- a job that is told keeps what it knows of a failed input
  have knows : dnt.failedInput.isSome →
      (Executor.tell owed.ended owed.failed dnt waiting).failedInput.isSome := by
    intro failed
    simp [Executor.tell, Option.isNone_eq_false_iff.mpr failed, failed]
  have awaits : ∀ other input, (other ≠ owed.dep ∨ input ≠ owed.ended) → S.Awaits other input →
      S'.Awaits other input := by
    rintro other input differs (before | ⟨entry, inside, rfl, rfl⟩)
    · exact .inl (waitsFor_set found jobs_eq rfl (by simp [Executor.tell]) before)
    · rw [owes, mem_cons] at inside
      rcases inside with rfl | inside
      · simp at differs
      · exact .inr ⟨entry, owed_eq ▸ inside, rfl, rfl⟩
  refine fed.set onward found jobs_eq ?_ ?_ ?_ ?_
  · rw [named_eq]
    exact fun _ => .inl
  · intro entry inside
    rw [owed_eq] at inside
    exact .inl (by rw [owes]; exact mem_cons_of_mem _ inside)
  · intro other state this
    refine ⟨?_, ?_, fun _ input => awaits other input (.inl this), ?_⟩
    · rw [named_eq]
      exact fun _ => id
    · rw [thrown_eq]
      exact id
    · rw [work_eq]
      exact fun _ => id
  · refine ⟨?_, by simp [Executor.tell], ?_, by simp [Executor.tell], ?_⟩
    · intro input failed
      rw [named_eq]
      by_cases fresh : owed.failed = true ∧ dnt.failedInput = none
      · obtain rfl : owed.ended = input := by simpa [Executor.tell, fresh] using failed
        exact ⟨named, onward.ended (by simpa [fresh.1] using ended)⟩
      · have before : dnt.failedInput = some input := by
          rwa [Executor.tell, if_neg (by simpa using fresh)] at failed
        obtain ⟨inside, ended⟩ := own.failed input before
        exact ⟨inside, onward.ended ended⟩
    · intro _ kept input inside
      rw [thrown_eq] at kept
      rw [named_eq] at inside
      by_cases this : input = owed.ended
      · subst this
        by_cases failed : owed.failed = true
        · refine .inr (.inr ?_)
          cases earlier : dnt.failedInput with
          | none => simp [Executor.tell, failed, earlier]
          | some input => exact knows (by simp [earlier])
        · exact .inr (.inl (onward.ended (by simpa [failed] using ended)))
      · rcases own.blocked blocked kept input inside with before | succeeded | failed
        · exact .inl (awaits _ input (.inr this) before)
        · exact .inr (.inl (onward.ended succeeded))
        · exact .inr (.inr (knows failed))
    · intro result inside calm
      rw [work_eq] at inside
      obtain ⟨failed, some_failed⟩ := (own.work result inside (onward.calm calm)).1 blocked
      exact ⟨fun _ => ⟨failed, knows some_failed⟩, by simp [Executor.tell]⟩

theorem unblock (ledger : Ledger S) (holds : S.hand = some jid)
    (found : S.exe.jobs[jid]? = some job) (state_eq : job.state = .blocked 0)
    (sound : job.failedInput = none)
    (onward : Onward S
      { S with
        exe := { S.exe.toState jid .wantable with wantable := S.exe.wantable ++ [jid] }
        hand := none }) :
    Fed { S with
      exe := { S.exe.toState jid .wantable with wantable := S.exe.wantable ++ [jid] }
      hand := none } := by
  have own := fed.told jid job found
  have kept := ledger.hand jid holds
  have no_due : S.due jid = 0 :=
    (((ledger.fits jid job found (by simp [state_eq])).waits 0 state_eq).counted kept).symm
  have jobs_eq : (S.exe.toState jid .wantable).jobs = S.exe.jobs.set jid { job with state := .wantable } := by
    rw [toState_eq found]
  refine fed.set onward found jobs_eq (fun _ => .inl) (fun _ => .inl) ?_ ?_
  · refine fun other state _ => ⟨fun _ => id, id, fun _ input => ?_, fun _ => id⟩
    exact Or.imp_left (waitsFor_set found jobs_eq rfl (by simp))
  · refine ⟨?_, fun _ _ => ⟨sound, fun input inside => ?_⟩, by simp, by simp, ?_⟩
    · simp [sound]
    · rcases own.blocked (by simp [state_eq]) kept input inside with awaits | succeeded | failed
      · exact absurd no_due (due_ne_zero awaits)
      · exact onward.ended succeeded
      · simp [sound] at failed
    · intro result inside calm
      have failed := ((own.work result inside (onward.calm calm)).1 (by simp [state_eq])).2
      simp [sound] at failed

theorem hold {result : Done} (found : S.exe.jobs[jid]? = some job)
    (state_eq : job.state = .blocked 0) (why : Ends S.exe job result)
    (onward : Onward S { S with work := (jid, result) :: S.work, hand := none }) :
    Fed { S with work := (jid, result) :: S.work, hand := none } := by
  have own := fed.told jid job found
  refine fed.write onward found (fun other x _ found_x => ⟨x, found_x, rfl, rfl⟩) le_rfl (fun _ => .inl)
    (fun _ => .inl) ?_ ⟨own.failed, own.free, own.blocked, own.done, ?_⟩
  · intro other state this
    refine ⟨fun _ => id, id, fun _ _ => id, fun its inside => ?_⟩
    rcases mem_cons.mp inside with same | inside
    · exact absurd (Prod.mk.inj same).1 this
    · exact inside
  · intro its inside calm
    rcases mem_cons.mp inside with same | inside
    · obtain ⟨-, rfl⟩ := Prod.mk.inj same
      refine ⟨fun _ => ?_, by simp [state_eq]⟩
      rcases why with ⟨rfl, failed⟩ | ⟨-, stopped⟩ | ⟨-, left⟩
      · exact ⟨rfl, failed⟩
      · exact absurd (calm.1.symm.trans stopped) (by simp)
      · exact absurd (calm.2.symm.trans left) (by simp)
    · exact own.work its inside (onward.calm calm)

end Turns

theorem create (prio : ℚ) (fed : Fed S) (unused : S.work = [])
    (onward : Onward S { S with exe := S.exe.push prio, hand := some S.exe.jobs.length }) :
    Fed { S with exe := S.exe.push prio, hand := some S.exe.jobs.length } := by
  have fresh : (S.exe.push prio).jobs[S.exe.jobs.length]? = some { state := .blocked 0, prio := prio } := by
    simp [push]
  have unnamed : ∀ input, (S.exe.jobs.length, input) ∉ S.named := by
    intro input inside
    exact absurd (fed.bound _ inside) (Nat.lt_irrefl _)
  refine fed.write onward fresh ?_ (by simp [push]) (fun _ => .inl) (fun _ => .inl) ?_ ?_
  · intro other x this found
    exact ⟨x, (push_cases found).resolve_right fun new => this new.1, rfl, rfl⟩
  · refine fun other state _ => ⟨fun _ => id, id, fun _ input => Or.imp_left ?_, fun _ => id⟩
    rintro ⟨needed, needs, live, inside⟩
    refine ⟨needed, ?_, live, inside⟩
    rw [push, List.getElem?_append_left (lt_length needs)]
    exact needs
  · exact ⟨by simp, by simp, fun _ _ input inside => absurd inside (unnamed input), by simp, by simp [unused]⟩

theorem block (fed : Fed S) (unused : S.work = [])
    (found : S.exe.jobs[jid]? = some job) (running : job.state.kind = .running)
    (onward : Onward S { S with exe := S.exe.toState jid (.blocked 0), hand := some jid }) :
    Fed { S with exe := S.exe.toState jid (.blocked 0), hand := some jid } := by
  have own := fed.told jid job found
  have jobs_eq : (S.exe.toState jid (.blocked 0)).jobs = S.exe.jobs.set jid { job with state := .blocked 0 } := by
    rw [toState_eq found]
  obtain ⟨sound, succeeded⟩ := own.free (by simp [running]) (by simp [running])
  refine fed.set onward found jobs_eq (fun _ => .inl) (fun _ => .inl) ?_ ?_
  · refine fun other state _ => ⟨fun _ => id, id, fun _ input => ?_, fun _ => id⟩
    exact Or.imp_left (waitsFor_set found jobs_eq rfl (by simp))
  · exact ⟨by simp [sound], by simp, fun _ _ input inside => .inr (.inl (onward.ended (succeeded input inside))),
      by simp, by simp [unused]⟩

section Inputs

variable (fed : Fed S) (found : S.exe.jobs[jid]? = some job)
include fed found

/-- A blocked job gets an input that will tell it. -/
theorem await (blocked : job.state.kind = .blocked)
    (needs : S.exe.jobs[input]? = some needed) (live : needed.state.kind ≠ .done) :
    Fed { S with
      exe := { S.exe with jobs := S.exe.jobs.modify input (Job.awaitedBy jid) }
      named := S.named ++ [(jid, input)] } := by
  have own := fed.told jid job found
  have onward : Onward S { S with
      exe := { S.exe with jobs := S.exe.jobs.modify input (Job.awaitedBy jid) }
      named := S.named ++ [(jid, input)] } := ⟨.await needs live, id⟩
  have written : (S.exe.jobs.modify input (Job.awaitedBy jid))[input]? = some (needed.awaitedBy jid) := by
    simp [needs]
  have same : ∀ {other : JobId} {x : Job}, (S.exe.jobs.modify input (Job.awaitedBy jid))[other]? = some x →
      ∃ y, S.exe.jobs[other]? = some y ∧ x.state = y.state ∧ x.failedInput = y.failedInput := by
    intro other x found_x
    by_cases this : input = other
    · subst this
      cases written.symm.trans found_x
      exact ⟨needed, needs, rfl, rfl⟩
    · exact ⟨x, by simpa [this] using found_x, rfl, rfl⟩
  have waits : ∀ other source, WaitsFor S.exe other source →
      WaitsFor { S.exe with jobs := S.exe.jobs.modify input (Job.awaitedBy jid) } other source := by
    rintro other source ⟨other_needed, found_needed, live_needed, inside⟩
    by_cases this : input = source
    · subst this
      cases needs.symm.trans found_needed
      exact ⟨_, written, live, List.mem_append_left _ inside⟩
    · exact ⟨other_needed, by simpa [this] using found_needed, live_needed, inside⟩
  obtain ⟨deps, found', -⟩ := awaited_found found input
  refine fed.write onward found' (fun other x _ => same) (by simp) ?_ (fun _ => .inl) ?_ ?_
  · intro edge inside
    rcases mem_append.mp inside with old | new
    · exact .inl old
    · exact .inr (by rw [mem_singleton.mp new])
  · intro other state this
    refine ⟨fun source inside => ?_, id, fun _ source => Or.imp_left (waits other source), fun _ => id⟩
    simpa [this] using inside
  · refine ⟨?_, fun unblocked => absurd blocked unblocked, ?_, ?_, fun result inside calm =>
      own.work result inside calm⟩
    · intro source failed
      obtain ⟨inside, ended⟩ := own.failed source failed
      exact ⟨onward.named inside, onward.ended ended⟩
    · intro _ kept source inside
      rcases mem_append.mp inside with old | new
      · rcases own.blocked blocked kept source old with awaits | succeeded | failed
        · exact .inl (awaits.imp_left (waits jid source))
        · exact .inr (.inl (onward.ended succeeded))
        · exact .inr (.inr failed)
      · obtain rfl : source = input := by simpa using new
        exact .inl (.inl ⟨_, written, live, by simp [Job.awaitedBy]⟩)
    · intro result state_eq
      simp only at state_eq
      simp [state_eq] at blocked

/-- A blocked job that waits for another number of inputs knows the same of them. -/
theorem recount {waiting : ℕ} (blocked : job.state.kind = .blocked) (onward : Onward S S')
    (jobs_eq : S'.exe.jobs = S.exe.jobs.set jid { job with state := .blocked waiting })
    (owed_eq : S'.owed = S.owed) (work_eq : S'.work = S.work)
    (named : ∀ edge ∈ S'.named, edge ∈ S.named ∨ edge.1 = jid)
    (thrown : ∀ other ∈ S.thrown, other ∈ S'.thrown)
    (accounted : jid ∉ S'.thrown → S'.named = S.named ∧ jid ∉ S.thrown) : Fed S' := by
  have own := fed.told jid job found
  have awaits : ∀ other input, S.Awaits other input → S'.Awaits other input := by
    intro other input
    rw [Stage.Awaits, Stage.Awaits, owed_eq]
    exact Or.imp_left (waitsFor_set found jobs_eq rfl (by simp))
  refine fed.set onward found jobs_eq named ?_ ?_ ?_
  · rw [owed_eq]
    exact fun _ => .inl
  · intro other state this
    refine ⟨fun input inside => ?_, thrown other, fun _ => awaits other, ?_⟩
    · exact (named _ inside).resolve_right this
    · rw [work_eq]
      exact fun _ => id
  · refine ⟨?_, by simp, ?_, by simp, ?_⟩
    · intro source failed
      obtain ⟨inside, ended⟩ := own.failed source failed
      exact ⟨onward.named inside, onward.ended ended⟩
    · intro _ kept source inside
      obtain ⟨named_eq, kept⟩ := accounted kept
      rw [named_eq] at inside
      rcases own.blocked blocked kept source inside with before | succeeded | failed
      · exact .inl (awaits jid source before)
      · exact .inr (.inl (onward.ended succeeded))
      · exact .inr (.inr failed)
    · intro result inside calm
      rw [work_eq] at inside
      exact ⟨fun _ => (own.work result inside (onward.calm calm)).1 blocked, by simp⟩

theorem link {waiting : ℕ} (state_eq : job.state = .blocked waiting)
    (needs : S.exe.jobs[input]? = some needed) (live : needed.state.kind ≠ .done) :
    Fed { S with
      exe := { S.exe with
        jobs := (S.exe.jobs.modify input (Job.awaitedBy jid)).modify jid (Job.blockedBy (waiting + 1)) }
      named := S.named ++ [(jid, input)] } := by
  have blocked : job.state.kind = .blocked := by simp [state_eq]
  obtain ⟨deps, written, -⟩ := awaited_found found input
  have overwritten := modify_eq_set (Job.blockedBy (waiting + 1)) written
  exact (fed.await found blocked needs live).recount written blocked
    ⟨.set written (by simp [state_eq]) overwritten rfl rfl rfl rfl (List.append_nil _).symm
      (by simp [Job.blockedBy]), id⟩
    overwritten rfl rfl (fun _ => .inl) (fun _ => id) fun kept => ⟨rfl, kept⟩

theorem meet {result : Done} {waiting : ℕ} (state_eq : job.state = .blocked waiting)
    (needs : S.exe.jobs[input]? = some needed) (ended : needed.state = .done result)
    (onward : Onward S
      { S with
        exe := { S.exe with
          jobs := S.exe.jobs.set jid
            { job with failedInput := if result.succeeded then job.failedInput else some input } }
        named := S.named ++ [(jid, input)] }) :
    Fed { S with
      exe := { S.exe with
        jobs := S.exe.jobs.set jid
          { job with failedInput := if result.succeeded then job.failedInput else some input } }
      named := S.named ++ [(jid, input)] } := by
  have own := fed.told jid job found
  have blocked : job.state.kind = .blocked := by simp [state_eq]
  have input_ended : Ended S.exe result.succeeded input := ⟨result, by simp [stateAt, needs, ended], rfl⟩
  have knows : job.failedInput.isSome →
      (if result.succeeded then job.failedInput else some input).isSome := by
    intro failed
    split
    · exact failed
    · rfl
  have awaits : ∀ other source, S.Awaits other source → Stage.Awaits { S with
      exe := { S.exe with
        jobs := S.exe.jobs.set jid
          { job with failedInput := if result.succeeded then job.failedInput else some input } }
      named := S.named ++ [(jid, input)] } other source :=
    fun other source => Or.imp_left (@waitsFor_set S.exe _ jid job
      { job with failedInput := if result.succeeded then job.failedInput else some input } found rfl rfl
      (by simp [blocked]) other source)
  refine fed.set onward found rfl ?_ (fun _ => .inl) ?_ ?_
  · intro edge inside
    rcases mem_append.mp inside with old | new
    · exact .inl old
    · exact .inr (by rw [mem_singleton.mp new])
  · intro other state this
    refine ⟨fun source inside => ?_, id, fun _ => awaits other, fun _ => id⟩
    simpa [this] using inside
  · refine ⟨?_, fun unblocked => absurd blocked unblocked, ?_, by simp [state_eq], ?_⟩
    · intro source failed
      by_cases succeeded : result.succeeded = true
      · obtain ⟨inside, ended⟩ := own.failed source (by simpa [succeeded] using failed)
        exact ⟨onward.named inside, onward.ended ended⟩
      · obtain rfl : input = source := by simpa [succeeded] using failed
        rw [Bool.eq_false_of_not_eq_true succeeded] at input_ended
        exact ⟨by simp, onward.ended input_ended⟩
    · intro _ kept source inside
      rcases mem_append.mp inside with old | new
      · rcases own.blocked blocked kept source old with before | succeeded | failed
        · exact .inl (awaits jid source before)
        · exact .inr (.inl (onward.ended succeeded))
        · exact .inr (.inr (knows failed))
      · obtain rfl : source = input := by simpa using new
        by_cases succeeded : result.succeeded = true
        · rw [succeeded] at input_ended
          exact .inr (.inl (onward.ended input_ended))
        · exact .inr (.inr (by simp [succeeded]))
    · intro its inside calm
      obtain ⟨failed, some_failed⟩ := (own.work its inside (onward.calm calm)).1 blocked
      exact ⟨fun _ => ⟨failed, knows some_failed⟩, fun unblocked => absurd blocked unblocked⟩

end Inputs

/-- After a stop nothing is said about why jobs ended. -/
theorem stop (fed : Fed S) :
    Fed { S with exe := (S.exe.stopAll S.work).1, work := (S.exe.stopAll S.work).2 } := by
  have disturbed : ¬ Undisturbed (S.exe.stopAll S.work).1 := fun calm => absurd calm.1 (by simp [stopAll])
  refine ⟨fed.edges, fed.owed, fed.bound, fun jid job found => ?_⟩
  have told := fed.told jid job found
  exact ⟨told.failed, told.free, told.blocked, fun _ _ calm => absurd calm disturbed,
    fun _ _ calm => absurd calm disturbed⟩

end Fed

theorem Move.stopped (move : Move strict S S') (stopped : S.exe.stopping = true) :
    S'.exe.stopping = true := by
  cases move with
  | turn turned => exact turned.stopping_eq.trans stopped
  | idle idle => exact idle.stopping_eq.trans stopped
  | settle _ _ _ found _ => rwa [finish_eq found]
  | unblock _ found _ _ _ _ => rwa [toState_eq found]
  | block _ _ _ found _ => rwa [toState_eq found]
  | unfollow _ _ _ => exact (unfollow_idle _).stopping_eq.trans stopped
  | stop _ _ _ => rfl
  | _ => exact stopped

theorem Move.onward (move : Move strict S S') : Onward S S' := by
  refine ⟨move.later, fun calm => ⟨?_, ?_⟩⟩
  · by_contra disturbed
    have stopped := move.stopped (Bool.eq_true_of_not_eq_false disturbed)
    exact absurd (calm.1.symm.trans stopped) (by simp)
  · rw [← move.later.abandoned_eq]
    exact calm.2

/-- Every move keeps what jobs know of their inputs. -/
theorem Move.fed (move : Move strict S S') (ledger : Ledger S) (fed : Fed S) : Fed S' := by
  have onward := move.onward
  cases move with
  | turn turned => exact fed.turn turned onward
  | idle idle => exact fed.idle idle onward
  | begin found free _ own => exact fed.begin found free own onward
  | @drop jid result work waits _ =>
    refine fed.keep onward (fun jid x found => ⟨x, found, rfl, rfl⟩) rfl rfl (fun _ => id) ?_
    refine fun _ _ _ => ⟨fun _ => id, id, fun _ _ => id, fun its inside => ?_⟩
    rw [waits]
    exact mem_cons_of_mem _ inside
  | settle waits told _ found live => exact fed.settle waits told found live onward
  | pass owes unblocked => exact fed.pass owes unblocked onward
  | tell owes _ found state_eq => exact fed.tell onward owes found state_eq rfl rfl rfl rfl rfl
  | unblock holds found state_eq sound _ _ => exact fed.unblock ledger holds found state_eq sound onward
  | hold _ found state_eq why => exact fed.hold found state_eq why onward
  | stop _ _ _ => exact fed.stop
  | create prio _ _ unused => exact fed.create prio unused onward
  | block _ _ unused found running => exact fed.block unused found running onward
  | link _ _ found state_eq needs live => exact fed.link found state_eq needs live
  | meet _ found state_eq needs ended => exact fed.meet found state_eq needs ended onward
  | unfollow _ _ _ => exact fed.idle (unfollow_idle _) onward
  | leave _ _ _ _ =>
    exact fed.keep onward (fun jid x found => ⟨x, found, rfl, rfl⟩) rfl rfl (fun _ => id)
      fun _ _ _ => ⟨fun _ => id, id, fun _ _ => id, fun _ => id⟩
  | @throw jid job waiting more holds found state_eq _ _ =>
    refine fed.recount found (by simp [state_eq]) onward rfl rfl rfl ?_ ?_ (by simp)
    · intro edge inside
      rcases mem_append.mp inside with old | new
      · exact .inl old
      · obtain ⟨input, -, rfl⟩ := mem_map.mp new
        exact .inr rfl
    · exact fun other => mem_cons_of_mem _

theorem Moves.fed (moves : Moves strict S S') (ledger : Ledger S) (fed : Fed S) : Ledger S' ∧ Fed S' := by
  induction moves with
  | refl => exact ⟨ledger, fed⟩
  | tail _ move ih => exact ⟨move.ledger ih.1, move.fed ih.1 ih.2⟩

/-! ## Runs -/

variable {kind : Executor → Call → Prop} {cfg : Config} {exe : Executor}
  {history : List (Call × List (JobId × JobId))}

theorem Fed.start {named : List (JobId × JobId)} {thrown : List JobId} (fed : Fed (between exe named thrown))
    (call : Call) : Fed (between (call.start exe) named thrown) := by
  cases call with
  | abandon =>
    refine ⟨fed.edges, fed.owed, fed.bound, fun jid job found => ?_⟩
    have told := fed.told jid job found
    exact ⟨told.failed, told.free, told.blocked, fun _ _ calm => absurd calm.2 (by simp [between, Call.start]),
      fun _ _ calm => absurd calm.2 (by simp [between, Call.start])⟩
  | _ => exact fed

/-- What holds between two calls of any run. -/
structure Supplied (cfg : Config) (exe : Executor) (history : List (Call × List (JobId × JobId))) : Prop where
  books : ∃ thrown, Ledger (between exe (namedIn history) thrown) ∧ Fed (between exe (namedIn history) thrown)
  cfg_eq : exe.cfg = cfg
  calm : cfg.keepGoing = true → Call.abandon ∉ history.map Prod.fst → Undisturbed exe

theorem Supplied.call (supplied : Supplied cfg exe history) {call : Call} (allowed : call.allowed exe) :
    Supplied cfg (call.perform exe) (history ++ [(call, call.names exe)]) := by
  obtain ⟨thrown, ledger, fed⟩ := supplied.books
  obtain ⟨thrown', moves, -⟩ := call.moves ledger allowed
  have later := moves.later
  obtain ⟨ledger', fed'⟩ := moves.fed (ledger.start call) (fed.start call)
  refine ⟨⟨thrown', by simpa [namedIn] using ledger', by simpa [namedIn] using fed'⟩, ?_, ?_⟩
  · exact later.cfg_eq.trans ((call.start_cfg exe).trans supplied.cfg_eq)
  · intro going stayed
    rw [List.map_append, mem_append, not_or] at stayed
    have calm := supplied.calm going stayed.1
    have start_eq : call.start exe = exe := by
      cases call with
      | abandon => simp at stayed
      | _ => rfl
    rw [start_eq] at later
    exact ⟨(later.stopping (supplied.cfg_eq ▸ going)).trans calm.1, later.abandoned_eq.trans calm.2⟩

theorem Reached.supplied (reached : Reached kind cfg exe history) : Supplied cfg exe history := by
  refine Run.Reached.invariant (P := Supplied cfg) ?_ ?_ reached
  · rintro exe rfl
    refine ⟨⟨[], ledger_start cfg, ?_⟩, rfl, fun _ _ => ⟨rfl, rfl⟩⟩
    refine ⟨?_, by simp [between], by simp [between, namedIn], by simp [between]⟩
    rintro jid input ⟨needed, found, -⟩
    simp [between] at found
  · rintro exe history out exe' supplied ⟨call, rfl, allowed, -, rfl⟩
    exact supplied.call allowed

theorem nextReady_assigned {ready : List JobId} {jid : JobId} {place : Placement}
    (handed : (exe.nextReady ready).1 = some (jid, place)) : exe.stateAt jid = some (.assigned place) := by
  induction ready with
  | nil => simp [nextReady] at handed
  | cons first ready ih =>
    rw [nextReady] at handed
    split at handed
    · rename_i its state_eq
      obtain ⟨rfl, rfl⟩ : first = jid ∧ its = place := by simpa using handed
      exact state_eq
    · exact ih handed

/-- Builds run on finished inputs only, and failures propagate exactly. -/
theorem builds_on_finished_inputs (reached : Reached (fun _ _ => True) cfg exe history) :
    (∀ jid place, exe.next.1 = some (jid, place) → ∀ input, (jid, input) ∈ namedIn history →
      ∃ result, exe.stateAt input = some (.done result) ∧ result.succeeded = true) ∧
    (cfg.keepGoing = true → Call.abandon ∉ history.map Prod.fst →
      ∀ jid result, exe.stateAt jid = some (.done result) →
        (result.outcome = .dependencyFailed ↔ ∃ input ended, (jid, input) ∈ namedIn history ∧
          exe.stateAt input = some (.done ended) ∧ ended.succeeded = false) ∧
        (result.outcome = .dependencyFailed → ∃ input ended, exe.failedInput jid = some input ∧
          (jid, input) ∈ namedIn history ∧ exe.stateAt input = some (.done ended) ∧
            ended.succeeded = false)) := by
  obtain ⟨⟨thrown, -, fed⟩, -, calm⟩ := reached.supplied
  refine ⟨fun jid place handed input inside => ?_, fun going stayed jid result ended => ?_⟩
  · obtain ⟨job, found, state_eq⟩ := exists_of_stateAt (nextReady_assigned handed)
    exact ((fed.told jid job found).free (by simp [state_eq]) (by simp [state_eq])).2 input inside
  · obtain ⟨job, found, state_eq⟩ := exists_of_stateAt ended
    have told := fed.told jid job found
    obtain ⟨failed, succeeded⟩ := told.done result state_eq (calm going stayed)
    have named : result.outcome = .dependencyFailed → ∃ input ended, exe.failedInput jid = some input ∧
        (jid, input) ∈ namedIn history ∧ exe.stateAt input = some (.done ended) ∧ ended.succeeded = false := by
      intro outcome_eq
      obtain ⟨input, input_eq⟩ := Option.isSome_iff_exists.mp (failed outcome_eq)
      obtain ⟨inside, its, its_eq, failure⟩ := told.failed input input_eq
      have read : exe.failedInput jid = some input := by
        have found' : exe.jobs[jid]? = some job := found
        simp [failedInput, found', input_eq]
      exact ⟨input, its, read, inside, its_eq, failure⟩
    refine ⟨⟨fun outcome_eq => ?_, ?_⟩, named⟩
    · obtain ⟨input, its, -, inside, its_eq, failure⟩ := named outcome_eq
      exact ⟨input, its, inside, its_eq, failure⟩
    · rintro ⟨input, its, inside, its_eq, failure⟩
      by_contra other
      obtain ⟨its', its_eq', success⟩ := succeeded other input inside
      obtain rfl : its' = its := by
        simpa using its_eq'.symm.trans its_eq
      simp [failure] at success

/-- A build fails that another one and, through it, a third one needs. -/
def failing : List Call :=
  [.add 1 [], .add 2 [0], .add 3 [1, 0], .connected, .takeWants [0], .onAssigned 0 { addr := "w" }, .next,
    .finished 0 false]

theorem builds_on_finished_inputs_failing : ∃ exe history, Reached (fun _ _ => True) {} exe history ∧
    exe.stateAt 2 = some (.done dependencyDone) ∧
    ∃ input ended, exe.failedInput 2 = some input ∧ (2, input) ∈ namedIn history ∧
      exe.stateAt input = some (.done ended) ∧ ended.succeeded = false := by
  have start : Reached (fun _ _ => True) {} { cfg := {} } [] := .start rfl
  obtain ⟨history, reached, calls_eq⟩ := start.made failing (by decide +kernel)
  have stayed : Call.abandon ∉ history.map Prod.fst := by simp [calls_eq, failing]
  refine ⟨_, history, reached, by decide +kernel, ?_⟩
  exact ((builds_on_finished_inputs reached).2 rfl stayed 2 dependencyDone (by decide +kernel)).2 rfl

end NixGrpcStore.Exec
