import NixGrpcStore.Client.Placed

/-!
# Stopping at the first failure

Without keep-going the first job that ends without success raises the flag `stopping`, and the loop in `settle`
then cancels every job that does not run.  A running job that is released later is cancelled too.  Only a
running job with a redirect gets round the flag: when it bounces it is assigned again and `next` hands it out.
-/

namespace NixGrpcStore.Exec

open Executor Tally Acyclic

variable {exe exe' : Executor} {jid : JobId} {job : Job}

/-- Some job ended without success. -/
def Failed (exe : Executor) : Prop := ∃ jid result, exe.stateAt jid = some (.done result) ∧ result.succeeded = false

/-- Every job runs or has ended. -/
def Bare (exe : Executor) : Prop := ∀ jid kind, exe.kindAt jid = some kind → kind = .running ∨ kind = .done

/-- Every job waits for others, runs or has ended. -/
def Still (exe : Executor) : Prop :=
  ∀ jid kind, exe.kindAt jid = some kind → kind = .blocked ∨ kind = .running ∨ kind = .done

theorem Bare.still (bare : Bare exe) : Still exe := fun jid kind kind_eq => .inr (bare jid kind kind_eq)

theorem Still.not_unplaced (still : Still exe) : ¬Unplaced exe jid := by
  rintro (wantable | wanted)
  · simpa using still jid _ wantable
  · simpa using still jid _ wanted

/-! ## The loop in `settle` leaves nothing to start -/

/-- Every job that neither runs nor has ended is to be given a result. -/
def Covers (exe : Executor) (work : Work) : Prop :=
  ∀ jid kind, exe.kindAt jid = some kind → kind ≠ .running → kind ≠ .done → jid ∈ work.map Prod.fst

theorem kindAt_set {job' : Job} (found : exe.jobs[jid]? = some job)
    (jobs_eq : exe'.jobs = exe.jobs.set jid job') (kept : job'.state.kind = job.state.kind)
    (other : JobId) : exe'.kindAt other = exe.kindAt other := by
  by_cases is_jid : other = jid
  · subst is_jid
    have bound := lt_length found
    simp [kindAt, stateAt, jobs_eq, List.getElem?_set_self bound, found, kept]
  · simp [kindAt, stateAt, jobs_eq, List.getElem?_set_ne (Ne.symm is_jid)]

theorem Covers.releaseDependant {failed : Bool} {stage : Executor × Work} (covers : Covers stage.1 stage.2)
    (stops : stage.1.stopping = true) (dep : JobId) :
    Covers (releaseDependant jid failed stage dep).1 (releaseDependant jid failed stage dep).2 := by
  obtain ⟨exe, work⟩ := stage
  cases found : exe.jobs[dep]? with
  | none => simpa only [Executor.releaseDependant, found] using covers
  | some dnt =>
    cases state_eq : dnt.state with
    | blocked waiting =>
      have bound : dep < exe.jobs.length := lt_length found
      have told : Covers { exe with jobs := exe.jobs.set dep (tell jid failed dnt waiting) } work := by
        intro other kind kind_eq
        rw [kindAt_set found rfl (by simp [Executor.tell, state_eq])] at kind_eq
        exact covers other kind kind_eq
      have written : ({ exe with jobs := exe.jobs.set dep (tell jid failed dnt waiting) }).jobs[dep]? =
        some (tell jid failed dnt waiting) := List.getElem?_set_self bound
      simp only [Executor.releaseDependant, found, state_eq]
      split_ifs
      · obtain ⟨_, going, _⟩ | ⟨result, ran, _⟩ := releaseInto_cases written work
        · cases going.symm.trans stops
        · rw [ran]
          intro other kind kind_eq waits live
          exact List.mem_cons_of_mem _ (told other kind kind_eq waits live)
      · exact told
    | _ => simpa only [Executor.releaseDependant, found, state_eq] using covers

theorem Covers.releaseDependants {failed : Bool} (deps : List JobId) {stage : Executor × Work}
    (covers : Covers stage.1 stage.2) (stops : stage.1.stopping = true) :
    Covers (deps.foldl (Executor.releaseDependant jid failed) stage).1
      (deps.foldl (Executor.releaseDependant jid failed) stage).2 := by
  induction deps generalizing stage with
  | nil => exact covers
  | cons dep deps ih =>
    have stopping_eq := (releaseDependant_load jid failed stage dep).2.2.1
    exact ih (covers.releaseDependant stops dep) (stopping_eq.trans stops)

theorem mem_unstarted {kind : Kind} (kind_eq : exe.kindAt jid = some kind) (waits : kind ≠ .running)
    (live : kind ≠ .done) : jid ∈ exe.unstarted := by
  have bound := lt_of_kindAt kind_eq
  simp [unstarted, bound, kind_eq, waits, live]

/-- One round of the loop.  If it stops everything, every job that has not started gets a result. -/
theorem settleOne_covers (found : exe.jobs[jid]? = some job) (result : Done) {work : Work}
    (covers : exe.stopping = true → Covers exe ((jid, result) :: work))
    (stops : (exe.settleOne jid result work).1.stopping = true) :
    Covers (exe.settleOne jid result work).1 (exe.settleOne jid result work).2 := by
  have stopping_eq : (exe.finish jid result).stopping = exe.stopping := by rw [finish_eq found]
  have ended : exe.stopping = true → Covers (exe.finish jid result) work := by
    intro stops other kind kind_eq waits live
    have differs : other ≠ jid := by
      rintro rfl
      rw [kindAt_of_found (finish_found found result)] at kind_eq
      exact live (Option.some.inj kind_eq).symm
    rw [finish_eq found, kindAt, stateAt, List.getElem?_set_ne (Ne.symm differs)] at kind_eq
    have inside := covers stops other kind kind_eq waits live
    simpa [differs] using inside
  have told_eq := (foldl_releaseDependant_load jid (!result.succeeded) job.dependants
    (exe.finish jid result, work)).2.2.1
  have told : exe.stopping = true → _ := fun stops =>
    @Covers.releaseDependants jid (!result.succeeded) job.dependants (exe.finish jid result, work) (ended stops)
      (stopping_eq.trans stops)
  simp only [settleOne, releaseDependants, finish_found found result] at stops ⊢
  generalize job.dependants.foldl (releaseDependant jid (!result.succeeded)) (exe.finish jid result, work) = ran
    at stops told told_eq ⊢
  split_ifs at stops ⊢
  · intro other kind kind_eq waits live
    have inside : other ∈ ran.1.unstarted := mem_unstarted kind_eq waits live
    simp [stopAll, inside]
  · exact told ((told_eq.trans stopping_eq).symm.trans stops)

/-- If everything stops, the loop ends with nothing left to start. -/
theorem settleLoop_bare (exe : Executor) (work : Work) (covers : exe.stopping = true → Covers exe work)
    (stops : (exe.settleLoop work).stopping = true) : Bare (exe.settleLoop work) := by
  induction exe, work using settleLoop.induct with
  | case1 exe =>
    rw [settleLoop] at stops ⊢
    intro jid kind kind_eq
    by_contra other
    push Not at other
    simpa using covers stops jid kind kind_eq other.1 other.2
  | case2 exe jid result work missing ih =>
    rw [settleLoop_missing missing] at stops ⊢
    refine ih (fun stops other kind kind_eq waits live => ?_) stops
    have differs : other ≠ jid := by
      rintro rfl
      simp [kindAt, stateAt, missing] at kind_eq
    simpa [differs] using covers stops other kind kind_eq waits live
  | case3 exe jid result work job found ended ih =>
    rw [settleLoop_ended found ended] at stops ⊢
    refine ih (fun stops other kind kind_eq waits live => ?_) stops
    have differs : other ≠ jid := by
      rintro rfl
      rw [kindAt_of_found found, ended] at kind_eq
      exact live (Option.some.inj kind_eq).symm
    simpa [differs] using covers stops other kind kind_eq waits live
  | case4 exe jid result work job found live ih =>
    rw [settleLoop_live found live] at stops ⊢
    exact ih (settleOne_covers found result covers) stops

/-- The same jobs have ended, the same way, and the flag stays as it is. -/
structure SameEnds (exe exe' : Executor) : Prop where
  stopping_eq : exe'.stopping = exe.stopping
  ends : ∀ jid result, exe'.stateAt jid = some (.done result) ↔ exe.stateAt jid = some (.done result)

theorem SameEnds.of_states (stopping_eq : exe'.stopping = exe.stopping)
    (states : ∀ jid, exe'.stateAt jid = exe.stateAt jid ∨
      exe.kindAt jid ≠ some .done ∧ exe'.kindAt jid ≠ some .done) : SameEnds exe exe' where
  stopping_eq := stopping_eq
  ends jid result := by
    obtain same | ⟨live, live'⟩ := states jid
    · rw [same]
    · refine ⟨fun ended => absurd ?_ live', fun ended => absurd ?_ live⟩
      · exact congrArg (Option.map JobState.kind) ended
      · exact congrArg (Option.map JobState.kind) ended

theorem SameEnds.set {job' : Job} (stopping_eq : exe'.stopping = exe.stopping)
    (found : exe.jobs[jid]? = some job) (jobs_eq : exe'.jobs = exe.jobs.set jid job')
    (live : job.state.kind ≠ .done) (live' : job'.state.kind ≠ .done) : SameEnds exe exe' := by
  refine .of_states stopping_eq fun other => ?_
  by_cases is_jid : other = jid
  · subst is_jid
    have bound := lt_length found
    have found' : exe'.jobs[other]? = some job' := jobs_eq ▸ List.getElem?_set_self bound
    exact .inr ⟨by simpa [kindAt_of_found found] using live, by simpa [kindAt_of_found found'] using live'⟩
  · left
    simp [stateAt, jobs_eq, List.getElem?_set_ne (Ne.symm is_jid)]

theorem Eases.sameEnds (eases : Eases exe exe') : SameEnds exe exe' := by
  induction eases with
  | refl exe => exact ⟨rfl, fun _ _ => Iff.rfl⟩
  | trans _ _ first second =>
    exact ⟨second.stopping_eq.trans first.stopping_eq, fun jid result =>
      (second.ends jid result).trans (first.ends jid result)⟩
  | same same => exact .of_states same.stopping_eq fun jid => .inl (same.states_eq jid)
  | wait _ stopping_eq found live jobs_eq blocked => exact .set stopping_eq found jobs_eq live (by simp [blocked])
  | want found live free =>
    rw [toState_eq found]
    exact .set rfl found rfl live (by simp)
  | push exe prio =>
    refine .of_states rfl fun jid => ?_
    obtain same | ⟨missing, blocked⟩ := push_states exe prio jid
    · exact .inl same
    · exact .inr ⟨by simp [missing], by simp [kindAt, blocked]⟩

theorem Closes.bare (closes : Closes exe exe') (going : exe.stopping = false) (stops : exe'.stopping = true) :
    Bare exe' := by
  cases closes with
  | ease eases => cases (eases.sameEnds.stopping_eq.trans going).symm.trans stops
  | @settle mid jid job eases found live result =>
    refine settleLoop_bare mid [(jid, result)] (fun stopped => ?_) stops
    cases stopped.symm.trans (eases.sameEnds.stopping_eq.trans going)

/-- The rounds of `reap` and `abandon`: they look for jobs that are not placed, and once everything stops there
are none. -/
theorem foldl_bare {α : Type} (view : α → Executor) {round : α → JobId → α}
    (closes : ∀ a jid, Closes (view a) (view (round a jid)))
    (idle : ∀ a jid, ¬Unplaced (view a) jid → view (round a jid) = view a) (ids : List JobId) (a : α)
    (bare : (view a).stopping = true → Bare (view a)) (stops : (view (ids.foldl round a)).stopping = true) :
    Bare (view (ids.foldl round a)) := by
  induction ids generalizing a with
  | nil => exact bare stops
  | cons jid ids ih =>
    refine ih (round a jid) (fun stops => ?_) stops
    cases stopped : (view a).stopping with
    | false => exact (closes a jid).bare stopped stops
    | true =>
      rw [idle a jid (bare stopped).still.not_unplaced]
      exact bare stopped

theorem reap_bare (now grace : Time) (going : exe.stopping = false)
    (stops : (exe.reap now grace).2.stopping = true) : Bare (exe.reap now grace).2 := by
  refine foldl_bare Prod.snd (Closes.reapOne now grace) (fun stage jid placed => ?_) _ (now + grace, exe)
    (fun stopped => by cases stopped.symm.trans going) stops
  obtain ⟨wake, exe⟩ := stage
  simp only [Executor.reapOne]
  split
  · rename_i wanted
    exact absurd (.inr (congrArg (Option.map JobState.kind) wanted)) placed
  · rfl

theorem abandon_bare (going : exe.stopping = false) (stops : exe.abandon.stopping = true) :
    Bare exe.abandon := by
  refine foldl_bare id Closes.abandonOne (fun exe jid placed => ?_) _ { exe with abandoned := true }
    (fun stopped => by cases stopped.symm.trans going) stops
  change exe.abandonOne jid = exe
  unfold abandonOne
  split
  · rename_i wantable
    exact absurd (.inl wantable) placed
  · rename_i wanted
    exact absurd (.inr wanted) placed
  · rfl

/-! ## The flag is up once a job has failed -/

/-- The flag tells whether a job failed. -/
def Flagged (exe : Executor) : Prop := Failed exe ↔ exe.stopping = true

theorem SameEnds.failed_iff (same : SameEnds exe exe') : Failed exe' ↔ Failed exe := by
  simp only [Failed, same.ends]

theorem SameEnds.flagged (same : SameEnds exe exe') (flagged : Flagged exe) : Flagged exe' := by
  rw [Flagged, same.failed_iff, same.stopping_eq]
  exact flagged

/-- A job that has not ended gets its result. -/
theorem failed_finish (found : exe.jobs[jid]? = some job) (live : job.state.kind ≠ .done) (result : Done) :
    Failed (exe.finish jid result) ↔ Failed exe ∨ result.succeeded = false := by
  have written : (exe.finish jid result).stateAt jid = some (.done result) := by
    simp [stateAt, finish_found found]
  have others : ∀ other, other ≠ jid → (exe.finish jid result).stateAt other = exe.stateAt other := by
    intro other differs
    rw [finish_eq found, stateAt, List.getElem?_set_ne (Ne.symm differs), stateAt]
  constructor
  · rintro ⟨other, ended, state_eq, failed⟩
    by_cases is_jid : other = jid
    · subst is_jid
      obtain rfl : result = ended := by simpa using written.symm.trans state_eq
      exact .inr failed
    · exact .inl ⟨other, ended, (others other is_jid).symm.trans state_eq, failed⟩
  · rintro (⟨other, ended, state_eq, failed⟩ | failed)
    · have differs : other ≠ jid := by
        rintro rfl
        rw [stateAt, found, Option.map_some, Option.some.injEq] at state_eq
        simp [state_eq] at live
      exact ⟨other, ended, (others other differs).trans state_eq, failed⟩
    · exact ⟨jid, result, written, failed⟩

theorem eases_cfg (eases : Eases exe exe') : exe'.cfg = exe.cfg := by
  induction eases with
  | refl exe => rfl
  | trans _ _ first second => exact second.trans first
  | same same => exact same.cfg_eq
  | wait cfg_eq => exact cfg_eq
  | want found live free => rw [toState_eq found]
  | push exe prio => rfl

/-- What keeps the flag right as long as keep-going is off. -/
def KeepsFlag (exe exe' : Executor) : Prop :=
  exe'.cfg = exe.cfg ∧ (exe.cfg.keepGoing = false → Flagged exe → Flagged exe')

theorem KeepsFlag.trans {exe'' : Executor} (first : KeepsFlag exe exe') (second : KeepsFlag exe' exe'') :
    KeepsFlag exe exe'' :=
  ⟨second.1.trans first.1, fun strictly flagged =>
    second.2 (first.1 ▸ strictly) (first.2 strictly flagged)⟩

theorem settleOne_keepsFlag (found : exe.jobs[jid]? = some job) (live : job.state.kind ≠ .done)
    (result : Done) (work : Work) : KeepsFlag exe (exe.settleOne jid result work).1 := by
  have ended := failed_finish found live result
  have told := @Eases.releaseDependants jid (!result.succeeded) job.dependants (exe.finish jid result, work)
  have told_failed := told.sameEnds.failed_iff
  have told_stopping := told.sameEnds.stopping_eq
  have told_cfg := eases_cfg told
  have finish_stopping : (exe.finish jid result).stopping = exe.stopping := by rw [finish_eq found]
  have finish_cfg : (exe.finish jid result).cfg = exe.cfg := by rw [finish_eq found]
  simp only [settleOne, releaseDependants, finish_found found result]
  generalize job.dependants.foldl (releaseDependant jid (!result.succeeded)) (exe.finish jid result, work) = ran
    at told_failed told_stopping told_cfg ⊢
  simp only at told_failed told_stopping told_cfg
  split_ifs with stops
  · refine ⟨told_cfg.trans finish_cfg, fun _ _ => ⟨fun _ => rfl, fun _ => ?_⟩⟩
    have failed : result.succeeded = false := by simp_all
    exact told_failed.mpr (ended.mpr (.inr failed))
  · refine ⟨told_cfg.trans finish_cfg, fun strictly flagged => ?_⟩
    rw [Flagged, told_failed, ended, told_stopping, finish_stopping]
    cases succeeded : result.succeeded with
    | true => simpa [Flagged] using flagged
    | false =>
      have stopped : exe.stopping = true := by simp_all
      simp [stopped]

theorem settleLoop_keepsFlag (exe : Executor) (work : Work) : KeepsFlag exe (exe.settleLoop work) := by
  induction exe, work using settleLoop.induct with
  | case1 exe =>
    rw [settleLoop]
    exact ⟨rfl, fun _ => id⟩
  | case2 exe jid result work missing ih =>
    rw [settleLoop_missing missing]
    exact ih
  | case3 exe jid result work job found ended ih =>
    rw [settleLoop_ended found ended]
    exact ih
  | case4 exe jid result work job found live ih =>
    rw [settleLoop_live found live]
    exact (settleOne_keepsFlag found live result work).trans ih

theorem framed_keepsFlag : Framed KeepsFlag where
  trans := .trans
  ease eases := ⟨eases_cfg eases, fun _ => eases.sameEnds.flagged⟩
  settle _ _ result := settleLoop_keepsFlag _ [(_, result)]

/-! ## Every call -/

theorem onAssigned_stopping (exe : Executor) (jid : JobId) (placement : Placement) :
    (exe.onAssigned jid placement).stopping = exe.stopping := by
  unfold onAssigned
  split
  · rfl
  · split_ifs
    · rfl
    · split
      · split_ifs <;> rfl
      · rfl
      · exact toState_stopping _ _ _
      · rfl

theorem JobState.placed_done {placement : Placement} {state : JobState} :
    (state.placed placement).kind = .done ↔ state.kind = .done := by
  cases state <;> simp [JobState.placed]

/-- A call ends jobs as most calls do, or ends none. -/
theorem Call.closes_or_sameEnds {call : Call} (allowed : call.allowed exe) :
    Closes exe (call.perform exe) ∨ (∃ now grace, call = .reap now grace) ∨ call = .abandon ∨
      SameEnds exe (call.perform exe) := by
  have plainly (plain : call.Plain) : Closes exe (call.perform exe) ∨ (∃ now grace, call = .reap now grace) ∨
      call = .abandon ∨ SameEnds exe (call.perform exe) :=
    (call.closes plain exe).imp_right (.imp_right .inl)
  cases call with
  | takeWants arranged =>
    obtain ⟨stopping_eq, states⟩ := takeWants_states allowed
    refine .inr (.inr (.inr (.of_states stopping_eq fun jid => ?_)))
    refine (states jid).imp_right ?_
    rintro ⟨unplaced, wanted⟩
    refine ⟨?_, by simp [Call.perform, kindAt, wanted]⟩
    rcases unplaced with kind_eq | kind_eq <;> simp [kind_eq]
  | onUnplaceable target reason now =>
    obtain ⟨stopping_eq, states⟩ := onUnplaceable_states exe target reason now
    refine .inr (.inr (.inr (.of_states stopping_eq fun jid => ?_)))
    exact (states jid).imp_right fun both => ⟨by simp [both.1], by simp [Call.perform, both.2]⟩
  | onPlaceable target =>
    obtain ⟨stopping_eq, states⟩ := onPlaceable_states exe target
    refine .inr (.inr (.inr (.of_states stopping_eq fun jid => ?_)))
    exact (states jid).imp_right fun both => ⟨by simp [both.1], by simp [Call.perform, both.2]⟩
  | onAssigned target placement =>
    refine .inr (.inr (.inr (.of_states (onAssigned_stopping exe target placement) fun jid => ?_)))
    by_cases unnamed : placement.addr = ""
    · left
      rw [Call.perform, onAssigned_unnamed unnamed]
    · by_cases is_target : jid = target
      · subst is_target
        simp only [Call.perform, kindAt, onAssigned_self unnamed]
        cases exe.stateAt jid with
        | none => exact .inl rfl
        | some state =>
          by_cases ended : state.kind = .done
          · left
            cases state <;> simp_all [JobState.placed]
          · right
            simp [ended, JobState.placed_done]
      · exact .inl (onAssigned_other placement is_target)
  | next =>
    obtain ⟨stopping_eq, states⟩ := nextReady_states exe exe.ready
    refine .inr (.inr (.inr (.of_states stopping_eq fun jid => ?_)))
    refine (states jid).imp_right ?_
    rintro ⟨place, assigned, running⟩
    have running' : exe.next.2.stateAt jid = some (.running place none) := running
    exact ⟨by simp [kindAt, assigned], by simp [Call.perform, kindAt, running']⟩
  | bounced target =>
    by_cases moved : MovedOn exe target
    · obtain ⟨place, placement, running⟩ := moved
      obtain ⟨stopping_eq, assigned, others⟩ := bounced_moved running
      refine .inr (.inr (.inr (.of_states stopping_eq fun jid => ?_)))
      by_cases is_target : jid = target
      · subst is_target
        exact .inr ⟨by simp [kindAt, running], by simp [Call.perform, kindAt, assigned]⟩
      · exact .inl (others jid is_target)
    · exact .inl (.bounced fun place placement running => moved ⟨place, placement, running⟩)
  | _ => exact plainly trivial

theorem Call.flagged {call : Call} (allowed : call.allowed exe) (strictly : exe.cfg.keepGoing = false)
    (flagged : Flagged exe) : Flagged (call.perform exe) := by
  obtain closes | ⟨now, grace, rfl⟩ | rfl | same := call.closes_or_sameEnds allowed
  · exact (framed_keepsFlag.close closes).2 strictly flagged
  · exact (@Framed.call _ framed_keepsFlag (.reap now grace) trivial exe).2 strictly flagged
  · exact (@Framed.call _ framed_keepsFlag .abandon trivial exe).2 strictly flagged
  · exact same.flagged flagged

/-- When a call stops everything, no job is left to start. -/
theorem Call.bare {call : Call} (allowed : call.allowed exe) (going : exe.stopping = false)
    (stops : (call.perform exe).stopping = true) : Bare (call.perform exe) := by
  obtain closes | ⟨now, grace, rfl⟩ | rfl | same := call.closes_or_sameEnds allowed
  · exact closes.bare going stops
  · exact reap_bare now grace going stops
  · exact abandon_bare going stops
  · cases stops.symm.trans (same.stopping_eq.trans going)

/-- After a failure no job with a redirect bounces. -/
def Call.Heeds (exe : Executor) : Call → Prop
  | .bounced jid => Failed exe → ¬MovedOn exe jid
  | _ => True

/-- A call that ends a job if it runs. -/
def Call.Leaves (jid : JobId) (call : Call) : Prop := call = .bounced jid ∨ ∃ succeeded, call = .finished jid succeeded

/-- A job's state once everything stops: it waits or has ended, or runs as before. -/
def Slowed (exe : Executor) (jid : JobId) (kind : Kind) : Prop :=
  kind = .blocked ∨ kind = .done ∨ kind = .running ∧ exe.kindAt jid = some .running

theorem Still.slowed (still : Still exe) {kind : Kind} (kind_eq : exe.kindAt jid = some kind) :
    Slowed exe jid kind := by
  obtain rfl | rfl | rfl := still jid kind kind_eq
  · exact .inl rfl
  · exact .inr (.inr ⟨rfl, kind_eq⟩)
  · exact .inr (.inl rfl)

theorem Lapses.slowed (lapses : Lapses exe exe') (stops : exe.stopping = true) (still : Still exe)
    {kind : Kind} (kind_eq : exe'.kindAt jid = some kind) : Slowed exe jid kind := by
  obtain same | ⟨_, state, state_eq, unheld, _⟩ := lapses.states jid
  · exact still.slowed (by rwa [kindAt, same] at kind_eq)
  · have placed : ¬Unplaced exe' jid := fun unplaced => still.not_unplaced (lapses.unplaced stops unplaced)
    rw [kindAt, state_eq, Option.map_some, Option.some.injEq] at kind_eq
    subst kind_eq
    cases state with
    | blocked waiting => exact .inl rfl
    | done result => exact .inr (.inl rfl)
    | wantable => exact absurd (.inl (congrArg (Option.map JobState.kind) state_eq)) placed
    | _ => simp [JobState.unheld] at unheld

/-- Once everything stops, no job is asked for, placed or started. -/
theorem Call.slows {call : Call} (allowed : call.allowed exe) (heeds : call.Heeds exe) (failed : Failed exe)
    (stops : exe.stopping = true) (still : Still exe) {kind : Kind}
    (kind_eq : (call.perform exe).kindAt jid = some kind) : Slowed exe jid kind := by
  have plainly (plain : call.Plain) : Slowed exe jid kind := (framed_lapses.call plain exe).slowed stops still kind_eq
  cases call with
  | takeWants arranged =>
    obtain same | ⟨unplaced, _⟩ := (takeWants_states allowed).2 jid
    · exact still.slowed (by rwa [Call.perform, kindAt, same] at kind_eq)
    · exact absurd unplaced still.not_unplaced
  | onUnplaceable target reason now =>
    obtain same | ⟨wanted, _⟩ := (onUnplaceable_states exe target reason now).2 jid
    · exact still.slowed (by rwa [Call.perform, kindAt, same] at kind_eq)
    · exact absurd (.inr wanted) still.not_unplaced
  | onPlaceable target =>
    obtain same | ⟨wanted, _⟩ := (onPlaceable_states exe target).2 jid
    · exact still.slowed (by rwa [Call.perform, kindAt, same] at kind_eq)
    · exact absurd (.inr wanted) still.not_unplaced
  | onAssigned target placement =>
    by_cases unnamed : placement.addr = ""
    · rw [Call.perform, onAssigned_unnamed unnamed] at kind_eq
      exact still.slowed kind_eq
    · by_cases is_target : jid = target
      · subst is_target
        rw [Call.perform, kindAt, onAssigned_self unnamed] at kind_eq
        refine still.slowed ?_
        cases state_eq : exe.stateAt jid with
        | none => simp [state_eq] at kind_eq
        | some state =>
          have kinds := still jid state.kind (by simp [kindAt, state_eq])
          rw [kindAt, state_eq]
          cases state <;> simp_all [JobState.placed]
      · rw [Call.perform, kindAt, onAssigned_other placement is_target] at kind_eq
        exact still.slowed kind_eq
  | next =>
    obtain same | ⟨place, assigned, _⟩ := (nextReady_states exe exe.ready).2 jid
    · refine still.slowed ?_
      rw [kindAt, ← same]
      exact kind_eq
    · simpa using still jid .assigned (by simp [kindAt, assigned])
  | bounced target =>
    have closes : Closes exe (exe.bounced target) :=
      .bounced fun place placement running => heeds failed ⟨place, placement, running⟩
    exact (framed_lapses.close closes).slowed stops still kind_eq
  | _ => exact plainly trivial

/-- `next` hands out assigned jobs only. -/
theorem nextReady_none (unassigned : ∀ jid place, exe.stateAt jid ≠ some (.assigned place))
    (ready : List JobId) : (exe.nextReady ready).1 = none := by
  induction ready with
  | nil => rfl
  | cons first ready ih =>
    rw [nextReady]
    split
    · rename_i place assigned
      exact absurd assigned (unassigned first place)
    · exact ih

/-! ## Runs -/

/-- What holds between two calls of a run with keep-going off. -/
structure Stops (cfg : Config) (exe : Executor) (named : List (JobId × JobId)) : Prop where
  ledger : ∃ thrown, Ledger (between exe named thrown)
  cfg_eq : exe.cfg = cfg
  flagged : Flagged exe
  still : exe.stopping = true → Still exe

section Runs

variable {cfg : Config} {named : List (JobId × JobId)} {thrown : List JobId}
  {history : List (Call × List (JobId × JobId))}

theorem Stops.slows {call : Call} (stops : Stops cfg exe named) (allowed : call.allowed exe)
    (heeds : call.Heeds exe) (failed : Failed exe) {kind : Kind}
    (kind_eq : (call.perform exe).kindAt jid = some kind) : Slowed exe jid kind :=
  call.slows allowed heeds failed (stops.flagged.mp failed) (stops.still (stops.flagged.mp failed)) kind_eq

theorem Stops.call {call : Call} (stops : Stops cfg exe named) (strictly : cfg.keepGoing = false)
    (allowed : call.allowed exe) (heeds : call.Heeds exe) :
    Stops cfg (call.perform exe) (named ++ call.names exe) := by
  obtain ⟨thrown, ledger⟩ := stops.ledger
  obtain ⟨thrown', ledger', later, _⟩ := call.ledger ledger allowed
  refine ⟨⟨thrown', ledger'⟩, ?_, call.flagged allowed (stops.cfg_eq ▸ strictly) stops.flagged, fun stopped => ?_⟩
  · exact later.cfg_eq.trans ((call.start_cfg exe).trans stops.cfg_eq)
  · cases before : exe.stopping with
    | false => exact (call.bare allowed before stopped).still
    | true =>
      intro jid kind kind_eq
      obtain rfl | rfl | ⟨rfl, _⟩ := stops.slows allowed heeds (stops.flagged.mpr before) kind_eq
      · exact .inl rfl
      · exact .inr (.inr rfl)
      · exact .inr (.inl rfl)

theorem Stops.next_none (stops : Stops cfg exe named) (failed : Failed exe) : exe.next.1 = none := by
  refine nextReady_none (fun jid place assigned => ?_) exe.ready
  simpa using stops.still (stops.flagged.mp failed) jid .assigned (by simp [kindAt, assigned])

/-- A running job that is finished or bounced after a failure has ended. -/
theorem Stops.ends {call : Call} (stops : Stops cfg exe named) (failed : Failed exe)
    (running : exe.kindAt jid = some .running) (leaves : call.Leaves jid) (heeds : call.Heeds exe) :
    (call.perform exe).kindAt jid = some .done := by
  obtain ⟨job, found, kind_eq⟩ := exists_of_kindAt running
  obtain rfl | ⟨succeeded, rfl⟩ := leaves
  · have unmoved := heeds failed
    cases state_eq : job.state with
    | running place redirect =>
      have state_at : exe.stateAt jid = some (.running place redirect) := by simp [stateAt, found, state_eq]
      cases redirect with
      | some placement => exact absurd ⟨place, placement, state_at⟩ unmoved
      | none =>
        obtain wantable | ended := bounced_kind state_at
        · have slowed := @Stops.slows exe jid cfg named (.bounced jid) stops trivial heeds failed _ wantable
          simp [Slowed] at slowed
        · exact ended
    | _ => simp [state_eq] at kind_eq
  · simp only [Call.perform, Executor.finished, running]
    exact congrArg (Option.map JobState.kind) (settle_done found (by simp [kind_eq]) _)

/-- If every job runs or has ended, none of those left waits. -/
theorem Bare.untangled (bare : Bare exe) (ledger : Ledger (between exe named thrown)) :
    Untangled exe named thrown := by
  have free : ∀ jid job, exe.jobs[jid]? = some job → job.state.kind ≠ .done →
      Stage.due (between exe named thrown) jid = 0 ∧ jid ∉ thrown := by
    intro jid job found live
    have running := (bare jid _ (kindAt_of_found found)).resolve_right live
    exact (ledger.fits jid job found live).free (by simp [running])
  refine ⟨ledger, fun jid cycle => ?_, fun jid inside => ?_⟩
  · obtain ⟨_, _, needed, found, live, _⟩ := Relation.TransGen.tail'_iff.mp cycle
    obtain ⟨input, ⟨waits, waits_found, waits_live, inside⟩, _⟩ := Relation.TransGen.head'_iff.mp cycle
    have none_due := (free jid needed found live).1
    have counts := le_tally (f := countsFor jid) waits_found
    have counted : 0 < waits.dependants.count jid := List.count_pos_iff.mpr inside
    simp only [countsFor, waits_live, if_false] at counts
    simp only [Stage.due, between] at none_due
    omega
  · by_cases bound : jid < exe.jobs.length
    · have found := List.getElem?_eq_getElem bound
      by_contra live
      exact (free jid _ found fun ended => live (by simp [kindAt_of_found found, ended])).2 inside
    · exact absurd inside (ledger.absent jid (Nat.not_lt.mp bound)).2.2.2

theorem Reached.stops (strictly : cfg.keepGoing = false) (reached : Reached Call.Heeds cfg exe history) :
    Stops cfg exe (namedIn history) := by
  refine Run.Reached.invariant (P := fun exe history => Stops cfg exe (namedIn history)) ?_ ?_ reached
  · rintro exe rfl
    refine ⟨⟨[], ledger_start cfg⟩, rfl, ⟨?_, nofun⟩, nofun⟩
    rintro ⟨jid, result, ended, _⟩
    simp [stateAt] at ended
  · rintro exe history out exe' stops ⟨call, rfl, allowed, heeds, rfl⟩
    simpa [namedIn] using stops.call strictly allowed heeds

/-- What holds after the call that stopped everything, in state `first`. -/
structure Winds (cfg : Config) (first : Executor) (named : List (JobId × JobId)) (thrown : List JobId)
    (exe : Executor) (later : List (Call × List (JobId × JobId))) : Prop where
  stops : Stops cfg exe (named ++ namedIn later)
  failed : Failed exe
  untangled : Untangled exe (named ++ namedIn later) thrown
  running : ∀ jid, exe.kindAt jid = some .running →
    first.kindAt jid = some .running ∧ ∀ call ∈ later.map Prod.fst, ¬call.Leaves jid

theorem Stops.still_failed {call : Call} (stops : Stops cfg exe named) (failed : Failed exe)
    (allowed : call.allowed exe) : Failed (call.perform exe) := by
  obtain ⟨thrown, ledger⟩ := stops.ledger
  obtain ⟨_, _, later, _⟩ := call.ledger ledger allowed
  obtain ⟨jid, result, ended, unsuccessful⟩ := failed
  refine ⟨jid, result, later.done jid result ?_, unsuccessful⟩
  rw [between, stateAt, call.start_jobs]
  exact ended

theorem Winds.call {first : Executor} {later : List (Call × List (JobId × JobId))} {call : Call}
    (winds : Winds cfg first named thrown exe later) (strictly : cfg.keepGoing = false)
    (allowed : call.allowed exe) (heeds : call.Heeds exe) (founded : call.Founded exe) :
    Winds cfg first named thrown (call.perform exe) (later ++ [(call, call.names exe)]) where
  stops := by simpa [namedIn] using winds.stops.call strictly allowed heeds
  failed := winds.stops.still_failed winds.failed allowed
  untangled := by simpa [namedIn] using winds.untangled.call allowed founded
  running jid running := by
    obtain blocked | ended | ⟨_, before⟩ := winds.stops.slows allowed heeds winds.failed running
    · cases blocked
    · cases ended
    · obtain ⟨at_first, stayed⟩ := winds.running jid before
      refine ⟨at_first, fun earlier inside leaves => ?_⟩
      rw [List.map_append, List.map_singleton, List.mem_append, List.mem_singleton] at inside
      obtain inside | rfl := inside
      · exact stayed earlier inside leaves
      · cases running.symm.trans (winds.stops.ends winds.failed before leaves heeds)

/-- Once no job runs, none is left. -/
theorem Winds.remaining {first : Executor} {later : List (Call × List (JobId × JobId))}
    (winds : Winds cfg first named thrown exe later)
    (left : ∀ jid, first.kindAt jid = some .running → ∃ call ∈ later.map Prod.fst, call.Leaves jid) :
    exe.remaining = 0 := by
  by_contra unfinished
  obtain ⟨jid, kind, kind_eq, unblocked, live⟩ := winds.untangled.moves_on (Nat.pos_of_ne_zero unfinished)
  obtain rfl | rfl | rfl := winds.stops.still (winds.stops.flagged.mp winds.failed) jid kind kind_eq
  · exact unblocked rfl
  · obtain ⟨at_first, stayed⟩ := winds.running jid kind_eq
    obtain ⟨call, inside, leaves⟩ := left jid at_first
    exact stayed call inside leaves
  · exact live rfl

/-- With keep-going off, in every run in which no job with a redirect bounces after a failure: once a job ended
without success, `next` hands out none any more, and a running job that is finished or bounced has ended.
When the first job fails, every other one runs or has ended, and none is left once each of those that run was
finished or bounced, as long as the inputs named meanwhile exist and do not wait for the jobs they are named for. -/
theorem nothing_starts_after_failure (strictly : cfg.keepGoing = false)
    (reached : Reached Call.Heeds cfg exe history) :
    (Failed exe → (∀ later exe', ReachedFrom Call.Heeds exe exe' later → exe'.next.1 = none) ∧
      ∀ (jid : JobId) (call : Call), exe.kindAt jid = some .running → call.Leaves jid → call.Heeds exe →
        (call.perform exe).kindAt jid = some .done) ∧
    ∀ call : Call, call.allowed exe → call.Heeds exe → ¬Failed exe → Failed (call.perform exe) →
      Bare (call.perform exe) ∧
      ∀ later exe',
        ReachedFrom (fun exe call => call.Heeds exe ∧ call.Founded exe) (call.perform exe) exe' later →
        (∀ jid, (call.perform exe).kindAt jid = some .running → ∃ call ∈ later.map Prod.fst, call.Leaves jid) →
        exe'.remaining = 0 := by
  have stops := reached.stops strictly
  refine ⟨fun failed => ⟨fun later exe' continued => ?_, fun jid call running leaves heeds => ?_⟩, ?_⟩
  · have both := continued.invariant
      (P := fun exe' later => Stops cfg exe' (namedIn history ++ namedIn later) ∧ Failed exe') ?_ ?_
    · exact both.1.next_none both.2
    · rintro exe rfl
      exact ⟨by simpa [namedIn] using stops, failed⟩
    · rintro exe later out exe' ⟨stops, failed⟩ ⟨call, rfl, allowed, heeds, rfl⟩
      exact ⟨by simpa [namedIn] using stops.call strictly allowed heeds, stops.still_failed failed allowed⟩
  · exact stops.ends failed running leaves heeds
  · intro call allowed heeds none_failed failed
    have going : exe.stopping = false := by
      rw [← Bool.not_eq_true]
      exact fun stopped => none_failed (stops.flagged.mpr stopped)
    have stops' := stops.call strictly allowed heeds
    have bare := call.bare allowed going (stops'.flagged.mp failed)
    refine ⟨bare, fun later exe' continued left => ?_⟩
    obtain ⟨thrown, ledger⟩ := stops'.ledger
    refine Winds.remaining (continued.invariant
      (P := Winds cfg (call.perform exe) (namedIn history ++ call.names exe) thrown) ?_ ?_) left
    · rintro exe' rfl
      exact ⟨by simpa [namedIn] using stops', failed, by simpa [namedIn] using bare.untangled ledger,
        fun jid running => ⟨running, by simp⟩⟩
    · rintro exe later out exe' winds ⟨call, rfl, allowed, ⟨heeds, founded⟩, rfl⟩
      exact winds.call strictly allowed heeds founded

end Runs

/-- Two builds run, and the second one is moved. -/
def twoRunning : List Call :=
  [.add 2 [], .add 1 [], .connected, .takeWants [0, 1], .onAssigned 0 { addr := "a" }, .onAssigned 1 { addr := "b" },
    .next, .next, .onAssigned 1 { addr := "c" }]

theorem nothing_starts_after_failure_twoRunning :
    ∃ exe history, Reached Call.Heeds { threads := 2, keepGoing := false } exe history ∧ ¬Failed exe ∧
      Failed (exe.finished 0 false) ∧ (exe.finished 0 false).kindAt 1 = some .running ∧
      Bare (exe.finished 0 false) := by
  have start : Reached Call.Heeds { threads := 2, keepGoing := false }
      { cfg := { threads := 2, keepGoing := false } } [] :=
    .start rfl
  have made : Made Call.Heeds { cfg := { threads := 2, keepGoing := false } } twoRunning :=
    ⟨by decide +kernel, trivial, by decide +kernel, trivial, trivial, trivial, by decide +kernel, trivial, trivial,
      trivial, trivial, trivial, trivial, trivial, trivial, trivial, trivial, trivial, trivial⟩
  obtain ⟨history, reached, -⟩ := start.made twoRunning made
  have none_failed : ¬Failed _ := fun failed =>
    absurd ((Reached.stops rfl reached).flagged.mp failed) (by decide +kernel)
  refine ⟨_, history, reached, none_failed, ⟨0, ⟨.built, false, ""⟩, by decide +kernel, rfl⟩, by decide +kernel, ?_⟩
  exact ((nothing_starts_after_failure rfl reached).2 (.finished 0 false) trivial trivial none_failed
    ⟨0, ⟨.built, false, ""⟩, by decide +kernel, rfl⟩).1

/-- After the first build failed, the second one bounces and is handed out again. -/
theorem moved_job_starts_after_failure :
    ∃ exe history, Reached (fun _ _ => True) { threads := 2, keepGoing := false } exe history ∧ Failed exe ∧
      exe.next.1 = some (1, { addr := "c" }) := by
  have start : Reached (fun _ _ => True) { threads := 2, keepGoing := false }
    { cfg := { threads := 2, keepGoing := false } } [] := .start rfl
  obtain ⟨history, reached, -⟩ := start.made (twoRunning ++ [.finished 0 false, .bounced 1]) (by decide +kernel)
  exact ⟨_, history, reached, ⟨0, ⟨.built, false, ""⟩, by decide +kernel, rfl⟩, by decide +kernel⟩

end NixGrpcStore.Exec
