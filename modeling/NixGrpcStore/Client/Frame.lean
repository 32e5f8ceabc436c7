import NixGrpcStore.Client.Progress

/-!
# What most calls do to a job

Apart from the calls that ask for a job, place it or take it on, a call of the executor lets jobs wait, makes
them wantable or adds one, and then settles some.  A relation that each of these steps keeps is kept by every
such call.
-/

namespace NixGrpcStore.Exec

open Tally (lt_length)
open Executor

variable {exe exe' : Executor} {jid : JobId} {job : Job}

/-- A write that keeps the state of the job it writes. -/
theorem stateAt_modify (write : Job → Job) (jobs_eq : exe'.jobs = exe.jobs.modify jid write)
    (kept : ∀ job, (write job).state = job.state) (other : JobId) :
    exe'.stateAt other = exe.stateAt other := by
  rw [stateAt, stateAt, jobs_eq, List.getElem?_modify]
  cases exe.jobs[other]? with
  | none => rfl
  | some job =>
    by_cases is_jid : jid = other
    · simp [is_jid, kept]
    · simp [is_jid]

theorem stateAt_set {job' : Job} (found : exe.jobs[jid]? = some job)
    (jobs_eq : exe'.jobs = exe.jobs.set jid job') (kept : job'.state = job.state) (other : JobId) :
    exe'.stateAt other = exe.stateAt other := by
  by_cases is_jid : other = jid
  · subst is_jid
    have bound := lt_length found
    simp [stateAt, jobs_eq, List.getElem?_set_self bound, found, kept]
  · simp [stateAt, jobs_eq, List.getElem?_set_ne (Ne.symm is_jid)]

/-- No job changes its state, and the flag that stops everything stays as it is. -/
structure SameStates (exe exe' : Executor) : Prop where
  cfg_eq : exe'.cfg = exe.cfg
  stopping_eq : exe'.stopping = exe.stopping
  states_eq : ∀ jid, exe'.stateAt jid = exe.stateAt jid

theorem unfollow_same (exe : Executor) (jid : JobId) : SameStates exe (exe.unfollow jid) := by
  cases found : exe.jobs[jid]? with
  | none =>
    simp only [unfollow, found]
    exact ⟨rfl, rfl, fun _ => rfl⟩
  | some job =>
    rw [unfollow_eq found]
    exact ⟨rfl, rfl, stateAt_set found rfl rfl⟩

theorem setFollowed_same (exe : Executor) (followed : Bool) (jid : JobId) :
    SameStates exe (exe.setFollowed followed jid) :=
  ⟨rfl, rfl, stateAt_modify (fun job => { job with followed := followed }) rfl fun _ => rfl⟩

theorem await_same (exe : Executor) (jid input : JobId) :
    SameStates exe { exe with jobs := exe.jobs.modify input (Job.awaitedBy jid) } :=
  ⟨rfl, rfl, stateAt_modify (Job.awaitedBy jid) rfl fun _ => rfl⟩

/-- Registering inputs changes no state. -/
theorem link_same (jid : JobId) (inputs : List JobId) (waiting : ℕ) (exe : Executor) :
    SameStates exe (link jid inputs waiting exe).2 := by
  induction inputs generalizing waiting exe with
  | nil => exact ⟨rfl, rfl, fun _ => rfl⟩
  | cons input inputs ih =>
    have chain {mid : Executor} (first : SameStates exe mid) (waiting : ℕ) :
        SameStates exe (link jid inputs waiting mid).2 := by
      have rest := ih waiting mid
      exact ⟨rest.cfg_eq.trans first.cfg_eq, rest.stopping_eq.trans first.stopping_eq,
        fun other => (rest.states_eq other).trans (first.states_eq other)⟩
    cases needs : exe.jobs[input]? with
    | none =>
      simp only [link, needs]
      exact ⟨rfl, rfl, fun _ => rfl⟩
    | some needed =>
      cases state_eq : needed.state with
      | done result =>
        simp only [link, needs, state_eq]
        split_ifs
        · exact ih waiting exe
        · refine chain ?_ waiting
          exact ⟨rfl, rfl, stateAt_modify (fun added => { added with failedInput := some input }) rfl
            fun _ => rfl⟩
      | _ =>
        simp only [link, needs, state_eq]
        exact chain (await_same exe jid input) (waiting + 1)

/-- A result for a job that does not exist is dropped. -/
theorem settleLoop_missing {result : Done} {work : Work} (missing : exe.jobs[jid]? = none) :
    exe.settleLoop ((jid, result) :: work) = exe.settleLoop work := by
  rw [settleLoop]
  split
  · rfl
  · rename_i found
    cases missing.symm.trans found

/-- A result for a job that has ended is dropped. -/
theorem settleLoop_ended {result : Done} {work : Work} (found : exe.jobs[jid]? = some job)
    (ended : job.state.kind = .done) : exe.settleLoop ((jid, result) :: work) = exe.settleLoop work := by
  rw [settleLoop]
  split
  · rfl
  · rename_i job' found'
    cases found.symm.trans found'
    rw [dif_pos ended]

/-- A new job waits. -/
theorem push_states (exe : Executor) (prio : ℚ) (other : JobId) :
    (exe.push prio).stateAt other = exe.stateAt other ∨
      exe.kindAt other = none ∧ (exe.push prio).stateAt other = some (.blocked 0) := by
  by_cases before : other < exe.jobs.length
  · left
    simp [stateAt, push, List.getElem?_append_left before]
  · have missing : exe.jobs[other]? = none := List.getElem?_eq_none (Nat.le_of_not_lt before)
    by_cases added : other = exe.jobs.length
    · subst added
      right
      simp [kindAt, stateAt, push]
    · left
      have missing' : (exe.push prio).jobs[other]? = none := by
        apply List.getElem?_eq_none
        simp only [push, List.length_append, List.length_singleton]
        exact Nat.lt_of_le_of_ne (Nat.le_of_not_lt before) (Ne.symm added)
      simp [stateAt, missing, missing']

/-- Jobs wait, become wantable or are added; none ends. -/
inductive Eases : Executor → Executor → Prop
  | refl (exe : Executor) : Eases exe exe
  | trans {exe mid exe' : Executor} (first : Eases exe mid) (second : Eases mid exe') : Eases exe exe'
  | same {exe exe' : Executor} (same : SameStates exe exe') : Eases exe exe'
  /-- A job that has not ended waits. -/
  | wait {exe exe' : Executor} {jid : JobId} {job job' : Job} (cfg_eq : exe'.cfg = exe.cfg)
      (stopping_eq : exe'.stopping = exe.stopping) (found : exe.jobs[jid]? = some job)
      (live : job.state.kind ≠ .done) (jobs_eq : exe'.jobs = exe.jobs.set jid job')
      (blocked : job'.state.kind = .blocked) : Eases exe exe'
  /-- A job becomes wantable; once everything stops, only one that was not placed. -/
  | want {exe : Executor} {jid : JobId} {job : Job} (found : exe.jobs[jid]? = some job)
      (live : job.state.kind ≠ .done) (free : exe.stopping = false ∨ Unplaced exe jid) :
      Eases exe (exe.toState jid .wantable)
  | push (exe : Executor) (prio : ℚ) : Eases exe (exe.push prio)

namespace Eases

section Live

variable (found : exe.jobs[jid]? = some job) (live : job.state.kind ≠ .done)
include found live

theorem toBlocked (waiting : ℕ) : Eases exe (exe.toState jid (.blocked waiting)) := by
  rw [toState_eq found]
  exact .wait rfl rfl found live rfl rfl

/-- A job becomes wantable and is listed so. -/
theorem requeue (free : exe.stopping = false ∨ Unplaced exe jid) (wantable : List JobId) :
    Eases exe { exe.toState jid .wantable with wantable := wantable } :=
  .trans (.want found live free) (.same ⟨rfl, rfl, fun _ => rfl⟩)

theorem releaseInto (work : Work) : Eases exe (exe.releaseInto jid work).1 := by
  obtain ⟨_, going, _, ran⟩ | ⟨result, ran, _⟩ := releaseInto_cases found work
  · rw [ran]
    exact .requeue found live (.inl going) _
  · rw [ran]
    exact .refl exe

end Live

theorem releaseDependant (failed : Bool) (stage : Executor × Work) (dep : JobId) :
    Eases stage.1 (releaseDependant jid failed stage dep).1 := by
  obtain ⟨exe, work⟩ := stage
  cases found : exe.jobs[dep]? with
  | none =>
    simp only [Executor.releaseDependant, found]
    exact .refl exe
  | some dnt =>
    cases state_eq : dnt.state with
    | blocked waiting =>
      have bound : dep < exe.jobs.length := lt_length found
      have told : Eases exe { exe with jobs := exe.jobs.set dep (tell jid failed dnt waiting) } :=
        .wait rfl rfl found (by simp [state_eq]) rfl rfl
      simp only [Executor.releaseDependant, found, state_eq]
      split_ifs
      · exact told.trans (.releaseInto (List.getElem?_set_self bound) (by simp [Executor.tell]) work)
      · exact told
    | _ =>
      simp only [Executor.releaseDependant, found, state_eq]
      exact .refl exe

/-- The dependants of a job that ended are told. -/
theorem releaseDependants (failed : Bool) (deps : List JobId) (stage : Executor × Work) :
    Eases stage.1 (deps.foldl (Executor.releaseDependant jid failed) stage).1 := by
  induction deps generalizing stage with
  | nil => exact .refl _
  | cons dep deps ih => exact (Eases.releaseDependant failed stage dep).trans (ih _)

theorem reconnect (exe : Executor) (jid : JobId) : Eases exe (exe.reconnect jid) := by
  unfold Executor.reconnect
  split
  · rename_i wanted
    obtain ⟨job, found, kind_eq⟩ := exists_of_kindAt wanted
    exact .requeue found (by simp [kind_eq]) (.inr (.inr wanted)) _
  · exact .same ⟨rfl, rfl, fun _ => rfl⟩
  · exact .same ⟨rfl, rfl, fun _ => rfl⟩
  · exact .refl exe

theorem connected (exe : Executor) : Eases exe exe.connected := by
  have each (ids : List JobId) (exe : Executor) : Eases exe (ids.foldl Executor.reconnect exe) := by
    induction ids generalizing exe with
    | nil => exact .refl exe
    | cons jid ids ih => exact (Eases.reconnect exe jid).trans (ih _)
  have opened : Eases exe { exe with stream := true } := .same ⟨rfl, rfl, fun _ => rfl⟩
  exact opened.trans (each _ _)

theorem unsent (exe : Executor) (ids : List JobId) : Eases exe (exe.unsent ids) := by
  induction ids generalizing exe with
  | nil => exact .refl exe
  | cons jid ids ih =>
    cases found : exe.jobs[jid]? with
    | none =>
      simp only [Executor.unsent, found]
      exact .refl exe
    | some job =>
      have flagged : Eases exe (exe.setFollowed false jid) := .same (setFollowed_same exe false jid)
      have found' : (exe.setFollowed false jid).jobs[jid]? = some { job with followed := false } := by
        simp [setFollowed, found]
      simp only [Executor.unsent, found]
      split_ifs with wanted
      · have unplaced : Unplaced (exe.setFollowed false jid) jid :=
          .inr (by simp [kindAt_of_found found', wanted])
        have requeued := Eases.requeue found' (by simp [wanted]) (.inr unplaced)
          ((exe.setFollowed false jid).wantable ++ [jid])
        exact (flagged.trans requeued).trans (ih _)
      · exact flagged.trans (ih _)

end Eases

/-- Jobs wait, become wantable or are added, and then one may get its result. -/
inductive Closes : Executor → Executor → Prop
  | ease {exe exe' : Executor} (eases : Eases exe exe') : Closes exe exe'
  | settle {exe mid : Executor} {jid : JobId} {job : Job} (eases : Eases exe mid) (found : mid.jobs[jid]? = some job)
      (live : job.state.kind ≠ .done) (result : Done) : Closes exe (mid.settle jid result)

namespace Closes

theorem after {mid : Executor} (eases : Eases exe mid) (closes : Closes mid exe') : Closes exe exe' := by
  cases closes with
  | ease rest => exact .ease (eases.trans rest)
  | settle rest found live result => exact .settle (eases.trans rest) found live result

theorem release (found : exe.jobs[jid]? = some job) (live : job.state.kind ≠ .done) :
    Closes exe (exe.release jid) := by
  rw [release_eq]
  obtain ⟨_, going, _, ran⟩ | ⟨result, ran, _⟩ := releaseInto_cases found []
  · rw [ran, settleLoop]
    exact .ease (.requeue found live (.inl going) _)
  · rw [ran]
    exact .settle (.refl exe) found live result

/-- A job that has not ended is released. -/
theorem blockAndRelease (found : exe.jobs[jid]? = some job) (live : job.state.kind ≠ .done) :
    Closes exe ((exe.toState jid (.blocked 0)).release jid) :=
  .after (.toBlocked found live 0) (.release (toState_found found (.blocked 0)) (by simp))

theorem add (exe : Executor) (prio : ℚ) (inputs : List JobId) : Closes exe (exe.add prio inputs).2 := by
  have linked := link_same exe.jobs.length inputs 0 (exe.push prio)
  have pushed : (exe.push prio).stateAt exe.jobs.length = some (.blocked 0) := by simp [stateAt, Executor.push]
  simp only [Executor.add]
  generalize link exe.jobs.length inputs 0 (exe.push prio) = ran at linked
  obtain ⟨_ | waiting, mid⟩ := ran
  · exact .ease ((Eases.push exe prio).trans (.same linked))
  · have so_far : Eases exe mid := (Eases.push exe prio).trans (.same linked)
    obtain ⟨job, found, state_eq⟩ := exists_of_stateAt ((linked.states_eq _).trans pushed)
    have counted : Eases mid (counting mid exe.jobs.length waiting) := by
      rw [counting_eq found]
      exact .wait rfl rfl found (by simp [state_eq]) rfl rfl
    simp only
    split_ifs
    · exact .after (so_far.trans counted) (.release (counting_found found waiting) (by simp [Job.blockedBy]))
    · exact .ease (so_far.trans counted)

theorem blockOn (exe : Executor) (jid input : JobId) : Closes exe (exe.blockOn jid input) := by
  unfold Executor.blockOn
  split
  case h_2 => exact .ease (.refl exe)
  case h_1 job needed found needs =>
    split
    case h_3 => exact .ease (.refl exe)
    case h_1 place redirect result state_eq needed_eq =>
      have live : job.state.kind ≠ .done := by simp [state_eq]
      split_ifs
      · exact .blockAndRelease found live
      · have bound := lt_length found
        have written : ({ exe with jobs := exe.jobs.set jid { job with failedInput := some input } }).jobs[jid]? =
          some { job with failedInput := some input } := List.getElem?_set_self bound
        have failed : Eases exe { exe with jobs := exe.jobs.set jid { job with failedInput := some input } } :=
          .same ⟨rfl, rfl, stateAt_set found rfl rfl⟩
        exact .after failed (.blockAndRelease written live)
    case h_2 place redirect state_eq _ =>
      have awaited := await_same exe jid input
      have unfollowed := unfollow_same { exe with jobs := exe.jobs.modify input (Job.awaitedBy jid) } jid
      have running : ({ exe with jobs := exe.jobs.modify input (Job.awaitedBy jid) }.unfollow jid).stateAt jid =
          some (.running place redirect) := by
        rw [unfollowed.states_eq, awaited.states_eq, stateAt, found, Option.map_some, state_eq]
      obtain ⟨job', found', state_eq'⟩ := exists_of_stateAt running
      have waits := Eases.toBlocked found' (by simp [state_eq']) 1
      exact .ease (((Eases.same awaited).trans (.same unfollowed)).trans waits)

/-- A job ends that is of some kind and has not ended. -/
theorem settleKind {kind : Kind} (kind_eq : exe.kindAt jid = some kind) (live : kind ≠ .done)
    (result : Done) : Closes exe (exe.settle jid result) := by
  obtain ⟨job, found, rfl⟩ := exists_of_kindAt kind_eq
  exact .settle (.refl exe) found live result

theorem onCached (exe : Executor) (jid : JobId) : Closes exe (exe.onCached jid) := by
  unfold Executor.onCached
  split
  · rename_i wanted
    exact .settleKind wanted (by simp) _
  · exact .ease (.refl exe)

theorem finished (exe : Executor) (jid : JobId) (succeeded : Bool) :
    Closes exe (exe.finished jid succeeded) := by
  unfold Executor.finished
  split
  · rename_i running
    exact .settleKind running (by simp) _
  · exact .ease (.refl exe)

/-- A running job bounces that was not moved. -/
theorem bounced (unmoved : ∀ place placement, exe.stateAt jid ≠ some (.running place (some placement))) :
    Closes exe (exe.bounced jid) := by
  cases found : exe.jobs[jid]? with
  | none =>
    simp only [Executor.bounced, found]
    exact .ease (.refl exe)
  | some job =>
    have bound := lt_length found
    cases state_eq : job.state with
    | running place redirect =>
      cases redirect with
      | some placement => exact absurd (by simp [stateAt, found, state_eq]) (unmoved place placement)
      | none =>
        have counted : Eases exe { exe with jobs := exe.jobs.set jid { job with bounced := job.bounced + 1 } } :=
          .same ⟨rfl, rfl, stateAt_set found rfl rfl⟩
        have written : ({ exe with jobs := exe.jobs.set jid { job with bounced := job.bounced + 1 } }).jobs[jid]? =
          some { job with bounced := job.bounced + 1 } := List.getElem?_set_self bound
        rw [state_eq] at counted written
        simp only [Executor.bounced, found, state_eq]
        split_ifs
        · exact .settle counted written (by simp) _
        · exact .after counted (.blockAndRelease written (by simp))
    | _ =>
      simp only [Executor.bounced, found, state_eq]
      exact .ease (.refl exe)

theorem reapOne (now grace : Time) (stage : Time × Executor) (jid : JobId) :
    Closes stage.2 (reapOne now grace stage jid).2 := by
  obtain ⟨wake, exe⟩ := stage
  simp only [Executor.reapOne]
  split
  · rename_i wanted
    obtain ⟨job, found, state_eq⟩ := exists_of_stateAt wanted
    split_ifs
    · exact .ease (.refl exe)
    · exact .settle (.refl exe) found (by simp [state_eq]) _
  · exact .ease (.refl exe)

theorem abandonOne (exe : Executor) (jid : JobId) : Closes exe (exe.abandonOne jid) := by
  unfold Executor.abandonOne
  split
  · rename_i wantable
    exact .settleKind wantable (by simp) _
  · rename_i wanted
    exact .settleKind wanted (by simp) _
  · exact .ease (.refl exe)

end Closes

/-- A relation that jobs keep which wait, become wantable, are added or get their results. -/
structure Framed (R : Executor → Executor → Prop) : Prop where
  trans : ∀ {exe mid exe'}, R exe mid → R mid exe' → R exe exe'
  ease : ∀ {exe exe'}, Eases exe exe' → R exe exe'
  settle : ∀ {exe : Executor} {jid : JobId} {job : Job}, exe.jobs[jid]? = some job → job.state.kind ≠ .done →
    ∀ result, R exe (exe.settle jid result)

section Framed

variable {R : Executor → Executor → Prop}

theorem Framed.close (framed : Framed R) (closes : Closes exe exe') : R exe exe' := by
  cases closes with
  | ease eases => exact framed.ease eases
  | settle eases found live result => exact framed.trans (framed.ease eases) (framed.settle found live result)

theorem Framed.foldl (framed : Framed R) {α : Type} (view : α → Executor) {round : α → JobId → α}
    (keeps : ∀ a jid, Closes (view a) (view (round a jid))) (ids : List JobId) (a : α) :
    R (view a) (view (ids.foldl round a)) := by
  induction ids generalizing a with
  | nil => exact framed.ease (.refl _)
  | cons jid ids ih => exact framed.trans (framed.close (keeps a jid)) (ih (round a jid))

/-- The calls that neither ask for a job nor place it nor take it on. -/
def Call.Plain : Call → Prop
  | .takeWants _ | .onAssigned _ _ | .onUnplaceable _ _ _ | .onPlaceable _ | .next | .bounced _ => False
  | _ => True

/-- Only `reap` and `abandon` end jobs one after the other. -/
theorem Call.closes {call : Call} (plain : call.Plain) (exe : Executor) :
    Closes exe (call.perform exe) ∨ (∃ now grace, call = .reap now grace) ∨ call = .abandon := by
  cases call with
  | add prio inputs => exact .inl (.add exe prio inputs)
  | blockOn jid input => exact .inl (.blockOn exe jid input)
  | connected => exact .inl (.ease (.connected exe))
  | disconnected =>
    refine .inl (.ease (.same ⟨rfl, rfl, fun jid => ?_⟩))
    simp only [Call.perform, Executor.disconnected, stateAt, List.getElem?_map, Option.map_map]
    rfl
  | unsent ids => exact .inl (.ease (.unsent exe ids))
  | takeCancels => exact .inl (.ease (.same ⟨rfl, rfl, fun _ => rfl⟩))
  | onCached jid => exact .inl (.onCached exe jid)
  | finished jid succeeded => exact .inl (.finished exe jid succeeded)
  | reap now grace => exact .inr (.inl ⟨now, grace, rfl⟩)
  | abandon => exact .inr (.inr rfl)
  | _ => exact plain.elim

theorem Framed.call (framed : Framed R) {call : Call} (plain : call.Plain) (exe : Executor) :
    R exe (call.perform exe) := by
  obtain closes | ⟨now, grace, rfl⟩ | rfl := call.closes plain exe
  · exact framed.close closes
  · exact framed.foldl Prod.snd (Closes.reapOne now grace) _ (now + grace, exe)
  · have left : R exe { exe with abandoned := true } := framed.ease (.same ⟨rfl, rfl, fun _ => rfl⟩)
    exact framed.trans left (framed.foldl id Closes.abandonOne _ _)

end Framed

end NixGrpcStore.Exec
