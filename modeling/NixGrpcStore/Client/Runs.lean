import NixGrpcStore.Client.Ledger
import NixGrpcStore.Lib.Run

/-!
# Runs of the executor

A run is any sequence of calls.  No job is lost on the way: the counters and lists agree with the
states of the jobs, and a job that is done stays as it is.
-/

namespace NixGrpcStore.Exec

open Executor Tally

variable {strict : Prop} {S S' : Stage}

/-! ## What later moves leave alone -/

/-- A job waits for another one that is not done. -/
def WaitsFor (exe : Executor) (jid input : JobId) : Prop :=
  ∃ needed, exe.jobs[input]? = some needed ∧ needed.state.kind ≠ .done ∧ jid ∈ needed.dependants

/-- A job that the scheduler has to place. -/
def Unplaced (exe : Executor) (jid : JobId) : Prop :=
  exe.kindAt jid = some .wantable ∨ exe.kindAt jid = some .wanted

/-- What the moves of a call leave alone. -/
structure Later (S S' : Stage) : Prop where
  cfg_eq : S'.exe.cfg = S.exe.cfg
  abandoned_eq : S'.exe.abandoned = S.exe.abandoned
  stopping : S.exe.cfg.keepGoing = true → S'.exe.stopping = S.exe.stopping
  done : ∀ jid result, S.exe.stateAt jid = some (.done result) → S'.exe.stateAt jid = some (.done result)
  waits : ∃ more, S'.named = S.named ++ more ∧
    ∀ jid input, WaitsFor S'.exe jid input → WaitsFor S.exe jid input ∨ (jid, input) ∈ more
  unplaced : S.exe.abandoned = true → ∀ jid, Unplaced S'.exe jid → Unplaced S.exe jid

namespace Later

theorem refl (S : Stage) : Later S S :=
  ⟨rfl, rfl, fun _ => rfl, fun _ _ => id, ⟨[], by simp, fun _ _ => .inl⟩, fun _ _ => id⟩

theorem trans {S'' : Stage} (first : Later S S') (second : Later S' S'') : Later S S'' where
  cfg_eq := second.cfg_eq.trans first.cfg_eq
  abandoned_eq := second.abandoned_eq.trans first.abandoned_eq
  stopping := fun going => (second.stopping (first.cfg_eq ▸ going)).trans (first.stopping going)
  done := fun jid result ended => second.done jid result (first.done jid result ended)
  waits := by
    obtain ⟨more, named_eq, waits⟩ := first.waits
    obtain ⟨more', named_eq', waits'⟩ := second.waits
    refine ⟨more ++ more', by rw [named_eq', named_eq, List.append_assoc], ?_⟩
    intro jid input now
    rcases waits' jid input now with before | new
    · rcases waits jid input before with earlier | new
      · exact .inl earlier
      · exact .inr (List.mem_append_left _ new)
    · exact .inr (List.mem_append_right _ new)
  unplaced := fun left jid now =>
    first.unplaced left jid (second.unplaced (first.abandoned_eq.trans left) jid now)

/-- Only one job changes, and it is not done. -/
theorem set {jid : JobId} {job job' : Job} (found : S.exe.jobs[jid]? = some job)
    (live : job.state.kind ≠ .done) (jobs_eq : S'.exe.jobs = S.exe.jobs.set jid job')
    (deps_eq : job'.dependants = job.dependants) (cfg_eq : S'.exe.cfg = S.exe.cfg)
    (abandoned_eq : S'.exe.abandoned = S.exe.abandoned) (stopping_eq : S'.exe.stopping = S.exe.stopping)
    {more : List (JobId × JobId)} (named_eq : S'.named = S.named ++ more)
    (unplaced : S.exe.abandoned = true → job'.state.kind = .wantable ∨ job'.state.kind = .wanted →
      job.state.kind = .wantable ∨ job.state.kind = .wanted) : Later S S' := by
  have bound : jid < S.exe.jobs.length := lt_length found
  have found' : S'.exe.jobs[jid]? = some job' := by
    rw [jobs_eq]
    exact List.getElem?_set_self bound
  have others : ∀ other, other ≠ jid → S'.exe.jobs[other]? = S.exe.jobs[other]? := by
    intro other this
    rw [jobs_eq, List.getElem?_set_ne (Ne.symm this)]
  refine ⟨cfg_eq, abandoned_eq, fun _ => stopping_eq, ?_, ⟨more, named_eq, ?_⟩, ?_⟩
  · intro other result ended
    have this : other ≠ jid := by
      rintro rfl
      obtain ⟨same, found_same, state_eq⟩ := exists_of_stateAt ended
      rw [← Option.some.inj (found.symm.trans found_same)] at state_eq
      exact live (by rw [state_eq]; rfl)
    rw [stateAt, others other this]
    exact ended
  · rintro other input ⟨needed, found_needed, needed_live, inside⟩
    left
    by_cases this : input = jid
    · subst this
      cases found'.symm.trans found_needed
      exact ⟨job, found, live, deps_eq ▸ inside⟩
    · exact ⟨needed, others input this ▸ found_needed, needed_live, inside⟩
  · intro left other now
    by_cases this : other = jid
    · subst this
      unfold Unplaced at now ⊢
      rw [kindAt_of_found found', Option.some.injEq, Option.some.injEq] at now
      rw [kindAt_of_found found, Option.some.injEq, Option.some.injEq]
      exact unplaced left now
    · unfold Unplaced kindAt stateAt at now ⊢
      rwa [others other this] at now

/-- No job changes its state or its dependants. -/
theorem keep (states : ∀ jid, S'.exe.stateAt jid = S.exe.stateAt jid)
    (waits : ∀ jid input, WaitsFor S'.exe jid input → WaitsFor S.exe jid input)
    (cfg_eq : S'.exe.cfg = S.exe.cfg) (abandoned_eq : S'.exe.abandoned = S.exe.abandoned)
    (stopping : S.exe.cfg.keepGoing = true → S'.exe.stopping = S.exe.stopping)
    (named_eq : S'.named = S.named) : Later S S' where
  cfg_eq := cfg_eq
  abandoned_eq := abandoned_eq
  stopping := stopping
  done := fun jid result ended => (states jid).trans ended
  waits := ⟨[], by simp [named_eq], fun jid input now => .inl (waits jid input now)⟩
  unplaced := by
    intro _ jid now
    unfold Unplaced kindAt at now ⊢
    rwa [states jid] at now

theorem idle {exe : Executor} (idle : Idle strict S.exe exe) : Later S { S with exe := exe } := by
  refine .keep (fun jid => ?_) (fun jid input => ?_) idle.cfg_eq idle.abandoned_eq
    (fun _ => idle.stopping_eq) rfl
  · have columns := congrArg (fun jobs => (jobs[jid]?).map Job.state) idle.jobs_eq
    simpa [stateAt, Option.map_map, Function.comp_def, Job.quiet] using columns
  · rintro ⟨needed, found, live, inside⟩
    obtain ⟨job, found', state_eq, deps_eq, -⟩ := idle.found found
    exact ⟨job, found', state_eq ▸ live, deps_eq ▸ inside⟩

theorem create (prio : ℚ) : Later S { S with exe := S.exe.push prio, hand := some S.exe.jobs.length } := by
  have old : ∀ {jid : JobId} {job : Job}, S.exe.jobs[jid]? = some job →
      (S.exe.push prio).jobs[jid]? = some job := by
    intro jid job found
    rw [push, List.getElem?_append_left (lt_length found)]
    exact found
  have cases_of : ∀ {jid : JobId} {job : Job}, (S.exe.push prio).jobs[jid]? = some job →
      S.exe.jobs[jid]? = some job ∨ job = { state := .blocked 0, prio := prio } := by
    exact fun found => (push_cases found).imp_right And.right
  refine ⟨rfl, rfl, fun _ => rfl, ?_, ⟨[], by simp, ?_⟩, ?_⟩
  · intro jid result ended
    obtain ⟨job, found, state_eq⟩ := exists_of_stateAt ended
    simp [stateAt, old found, state_eq]
  · rintro jid input ⟨needed, found, live, inside⟩
    rcases cases_of found with found | rfl
    · exact .inl ⟨needed, found, live, inside⟩
    · simp at inside
  · intro _ jid now
    have kinds : ∀ kind, kind ≠ .blocked → (S.exe.push prio).kindAt jid = some kind →
        S.exe.kindAt jid = some kind := by
      intro kind other kind_eq
      obtain ⟨job, found, rfl⟩ := exists_of_kindAt kind_eq
      rcases cases_of found with found | rfl
      · exact kindAt_of_found found
      · exact absurd rfl other
    exact now.imp (kinds _ (by simp)) (kinds _ (by simp))

theorem await {jid input : JobId} {needed : Job} (needs : S.exe.jobs[input]? = some needed)
    (live : needed.state.kind ≠ .done) :
    Later S { S with
      exe := { S.exe with jobs := S.exe.jobs.modify input (Job.awaitedBy jid) }
      named := S.named ++ [(jid, input)] } := by
  have bound : input < S.exe.jobs.length := lt_length needs
  have states : ∀ other, Executor.stateAt
      { S.exe with jobs := S.exe.jobs.modify input (Job.awaitedBy jid) } other = S.exe.stateAt other := by
    intro other
    have column : (S.exe.jobs.set input (needed.awaitedBy jid)).map Job.state = S.exe.jobs.map Job.state :=
      map_set_of_eq Job.state needs rfl
    simp only [stateAt, modify_eq_set _ needs, ← List.getElem?_map]
    rw [column]
  refine ⟨rfl, rfl, fun _ => rfl, fun other result ended => (states other).trans ended,
    ⟨[(jid, input)], rfl, ?_⟩, ?_⟩
  · rintro other source ⟨found, found_eq, found_live, inside⟩
    simp only [modify_eq_set _ needs] at found_eq
    rcases set_cases found_eq with ⟨rfl, rfl⟩ | ⟨-, found_eq⟩
    · simp only [Job.awaitedBy, List.mem_append, List.mem_singleton] at inside
      rcases inside with inside | rfl
      · exact .inl ⟨needed, needs, live, inside⟩
      · exact .inr (by simp)
    · exact .inl ⟨found, found_eq, found_live, inside⟩
  · intro _ other now
    unfold Unplaced kindAt at now ⊢
    rwa [states other] at now

end Later

theorem Move.later (move : Move strict S S') : Later S S' := by
  cases move with
  | turn turned =>
    exact .set turned.found turned.free.2 turned.jobs_eq turned.deps_eq turned.cfg_eq turned.abandoned_eq
      turned.stopping_eq (List.append_nil _).symm fun _ => turned.unplaced
  | idle idle => exact .idle idle
  | begin _ _ _ _ => exact .keep (fun _ => rfl) (fun _ _ => id) rfl rfl (fun _ => rfl) rfl
  | drop _ _ => exact .keep (fun _ => rfl) (fun _ _ => id) rfl rfl (fun _ => rfl) rfl
  | settle _ _ _ found live =>
    rw [finish_eq found]
    exact .set found live rfl rfl rfl rfl rfl (List.append_nil _).symm (by simp)
  | pass _ _ => exact .keep (fun _ => rfl) (fun _ _ => id) rfl rfl (fun _ => rfl) rfl
  | tell _ _ found state_eq =>
    exact .set found (by simp [state_eq]) rfl rfl rfl rfl rfl (List.append_nil _).symm (by simp [Executor.tell])
  | unblock _ found state_eq _ _ kept =>
    rw [toState_eq found]
    exact .set found (by simp [state_eq]) rfl rfl rfl rfl rfl (List.append_nil _).symm (by simp [kept])
  | hold _ _ _ _ => exact .keep (fun _ => rfl) (fun _ _ => id) rfl rfl (fun _ => rfl) rfl
  | stop _ _ strictly =>
    exact .keep (fun _ => rfl) (fun _ _ => id) rfl rfl (fun going => by simp [strictly] at going) rfl
  | create prio _ _ _ => exact .create prio
  | block _ _ _ found running =>
    rw [toState_eq found]
    exact .set found (by simp [running]) rfl rfl rfl rfl rfl (List.append_nil _).symm (by simp)
  | @link jid input _ _ waiting _ _ found state_eq needs live =>
    obtain ⟨deps, written, -⟩ := awaited_found found input
    have overwritten := modify_eq_set (Job.blockedBy (waiting + 1)) written
    exact (Later.await needs live).trans (.set written (by simp [state_eq]) overwritten rfl rfl rfl rfl
      (List.append_nil _).symm (by simp [Job.blockedBy]))
  | meet _ found state_eq _ _ =>
    exact .set found (by simp [state_eq]) rfl rfl rfl rfl rfl rfl (by simp [state_eq])
  | unfollow _ _ _ => exact .idle (unfollow_idle _)
  | leave _ _ _ _ => exact .keep (fun _ => rfl) (fun _ _ => id) rfl rfl (fun _ => rfl) rfl
  | throw _ _ found state_eq _ _ =>
    exact .set found (by simp [state_eq]) rfl rfl rfl rfl rfl rfl (by simp)

theorem Moves.later (moves : Moves strict S S') : Later S S' := by
  induction moves with
  | refl => exact .refl S
  | tail _ move ih => exact ih.trans move.later

/-! ## Runs -/

/-- One call of a kind, with the inputs it names. -/
def Step (kind : Executor → Call → Prop) (exe : Executor) (out : List (Call × List (JobId × JobId)))
    (exe' : Executor) : Prop :=
  ∃ call, out = [(call, call.names exe)] ∧ call.allowed exe ∧ kind exe call ∧ exe' = call.perform exe

/-- The states that calls of a kind lead to. -/
def ReachedFrom (kind : Executor → Call → Prop) (first : Executor) :
    Executor → List (Call × List (JobId × JobId)) → Prop :=
  Run.Reached (fun exe => exe = first) (Step kind)

/-- The states of the runs of an executor. -/
def Reached (kind : Executor → Call → Prop) (cfg : Config) :
    Executor → List (Call × List (JobId × JobId)) → Prop :=
  ReachedFrom kind { cfg := cfg }

/-- The inputs that were named in a run. -/
def namedIn (history : List (Call × List (JobId × JobId))) : List (JobId × JobId) :=
  history.flatMap Prod.snd

theorem ledger_start (cfg : Config) : Ledger (between { cfg := cfg } [] []) where
  remaining_eq := rfl
  active_eq := rfl
  active_le := Nat.zero_le _
  fits := by
    intro jid job found
    simp [between] at found
  absent := by
    intro jid _
    simp [between, Stage.due]
  hand := by
    intro jid holds
    simp [between] at holds

variable {kind : Executor → Call → Prop} {cfg : Config} {exe : Executor}
  {history : List (Call × List (JobId × JobId))}

theorem Call.start_cfg (call : Call) (exe : Executor) : (call.start exe).cfg = exe.cfg := by
  cases call with
  | _ => rfl

theorem Call.start_jobs (call : Call) (exe : Executor) : (call.start exe).jobs = exe.jobs := by
  cases call with
  | _ => rfl

/-- A call keeps the books, and what it leaves alone. -/
theorem Call.ledger {named : List (JobId × JobId)} {thrown : List JobId}
    (ledger : Ledger (between exe named thrown)) (call : Call) (allowed : call.allowed exe) :
    ∃ thrown', Ledger (between (call.perform exe) (named ++ call.names exe) thrown') ∧
      Later (between (call.start exe) named thrown)
        (between (call.perform exe) (named ++ call.names exe) thrown') ∧
      (call.Proper exe → thrown' = thrown) := by
  obtain ⟨thrown', moves, proper⟩ := call.moves ledger allowed
  exact ⟨thrown', moves.ledger (ledger.start call), moves.later, proper⟩

/-- The books of a run in which inputs are added first. -/
theorem Reached.ledger (reached : Reached Call.Proper cfg exe history) :
    Ledger (between exe (namedIn history) []) ∧ exe.cfg = cfg := by
  refine reached.invariant (P := fun exe history => Ledger (between exe (namedIn history) []) ∧ exe.cfg = cfg)
    ?_ ?_
  · rintro exe rfl
    exact ⟨ledger_start cfg, rfl⟩
  · rintro exe history out exe' ⟨ledger, cfg_eq⟩ ⟨call, rfl, allowed, proper, rfl⟩
    obtain ⟨thrown', ledger', later, kept⟩ := call.ledger ledger allowed
    obtain rfl := kept proper
    refine ⟨by simpa [namedIn] using ledger', later.cfg_eq.trans ?_⟩
    rw [← cfg_eq]
    exact call.start_cfg exe

/-- The books of a run from a state with its books in order. -/
theorem ReachedFrom.done {first : Executor} {named : List (JobId × JobId)}
    (ledger : Ledger (between first named [])) (reached : ReachedFrom Call.Proper first exe history)
    {jid : JobId} {result : Done} (ended : first.stateAt jid = some (.done result)) :
    exe.stateAt jid = some (.done result) := by
  have both := reached.invariant
    (P := fun exe history => Ledger (between exe (named ++ namedIn history) []) ∧
      exe.stateAt jid = some (.done result)) ?_ ?_
  · exact both.2
  · rintro exe rfl
    exact ⟨by simpa [namedIn] using ledger, ended⟩
  · rintro exe history out exe' ⟨ledger, ended⟩ ⟨call, rfl, allowed, proper, rfl⟩
    obtain ⟨thrown', ledger', later, kept⟩ := call.ledger ledger allowed
    obtain rfl := kept proper
    refine ⟨by simpa [namedIn] using ledger', later.done jid result ?_⟩
    simpa [between, stateAt, call.start_jobs] using ended

/-- The calls of a list may be made one after the other. -/
def Made (kind : Executor → Call → Prop) : Executor → List Call → Prop
  | _, [] => True
  | exe, call :: calls => call.allowed exe ∧ kind exe call ∧ Made kind (call.perform exe) calls

instance (exe : Executor) (call : Call) : Decidable (call.allowed exe) := by
  cases call <;> unfold Call.allowed <;> infer_instance

instance (exe : Executor) (call : Call) : Decidable (call.Proper exe) := by
  cases call <;> unfold Call.Proper <;> infer_instance

instance Made.decidable [∀ exe call, Decidable (kind exe call)] :
    ∀ (exe : Executor) (calls : List Call), Decidable (Made kind exe calls)
  | _, [] => .isTrue trivial
  | exe, call :: calls =>
    have := Made.decidable (call.perform exe) calls
    inferInstanceAs (Decidable (_ ∧ _ ∧ _))

theorem ReachedFrom.made {first : Executor} (reached : ReachedFrom kind first exe history)
    (calls : List Call) (made : Made kind exe calls) :
    ∃ history', ReachedFrom kind first (calls.foldl (fun exe call => call.perform exe) exe) history' ∧
      history'.map Prod.fst = history.map Prod.fst ++ calls := by
  induction calls generalizing exe history with
  | nil => exact ⟨history, reached, by simp⟩
  | cons call calls ih =>
    obtain ⟨allowed, fits, rest⟩ := made
    obtain ⟨history', reached', calls_eq⟩ := ih (.step reached ⟨call, rfl, allowed, fits, rfl⟩) rest
    exact ⟨history', reached', by simp [calls_eq]⟩

/-- The client executor never loses a job: whatever calls are made, as long as inputs are added
first. -/
theorem no_job_lost (reached : Reached Call.Proper cfg exe history) :
    exe.remaining = exe.jobs.countP (fun job => job.state.kind ≠ .done) ∧
    exe.active = exe.jobs.countP (fun job => job.state.kind.isActive) ∧ exe.active ≤ cfg.threads ∧
    (∀ jid waiting, exe.stateAt jid = some (.blocked waiting) → 0 < waiting ∧
      waiting = ((exe.jobs.filter fun job => job.state.kind ≠ .done).map fun job =>
        job.dependants.count jid).sum) ∧
    (∀ jid, exe.kindAt jid = some .wantable → exe.wantable.count jid = 1) ∧
    (∀ jid, exe.kindAt jid = some .assigned → exe.ready.count jid = 1) ∧
    ∀ later exe', ReachedFrom Call.Proper exe exe' later → ∀ jid result,
      exe.stateAt jid = some (.done result) → exe'.stateAt jid = some (.done result) := by
  obtain ⟨ledger, rfl⟩ := reached.ledger
  refine ⟨?_, ?_, ledger.active_le, ?_, ?_, ?_, ?_⟩
  · exact ledger.remaining_eq.trans (tally_countP (fun job => by simp [countsLive]) _)
  · exact ledger.active_eq.trans (tally_countP (fun job => by simp [countsActive]) _)
  · intro jid waiting state_eq
    obtain ⟨job, found, state_eq⟩ := exists_of_stateAt state_eq
    obtain ⟨counted, held, -⟩ := (ledger.fits jid job found (by simp [state_eq])).waits waiting state_eq
    refine ⟨Nat.pos_of_ne_zero fun zero => ?_, ?_⟩
    · simpa [Stage.Held, between] using held (by simp [between]) zero
    · rw [counted (by simp [between])]
      simp only [Stage.due, between, List.map_nil, List.count_nil, Nat.add_zero]
      exact tally_filter (fun job => by simp [countsFor]) _
  · intro jid kind_eq
    obtain ⟨job, found, kind_eq⟩ := exists_of_kindAt kind_eq
    have once := (ledger.fits jid job found (by simp [kind_eq])).wantable_eq
    rwa [kind_eq, if_pos rfl] at once
  · intro jid kind_eq
    obtain ⟨job, found, kind_eq⟩ := exists_of_kindAt kind_eq
    have once := (ledger.fits jid job found (by simp [kind_eq])).ready_eq
    rwa [kind_eq, if_pos rfl] at once
  · exact fun later exe' continued jid result ended => continued.done ledger ended

/-- Two builds, the second of which needs the first twice. -/
def twiceNeeded : List Call :=
  [.add 1 [], .add 2 [0, 0], .connected, .takeWants [0], .onAssigned 0 { addr := "w" }, .next]

theorem no_job_lost_twiceNeeded : ∃ exe history, Reached Call.Proper {} exe history ∧
    exe.stateAt 1 = some (.blocked 2) ∧
    exe.remaining = exe.jobs.countP (fun job => job.state.kind ≠ .done) := by
  have start : Reached Call.Proper {} { cfg := {} } [] := .start rfl
  obtain ⟨history, reached, -⟩ := start.made twiceNeeded (by decide +kernel)
  exact ⟨_, history, reached, by decide +kernel, (no_job_lost reached).1⟩

end NixGrpcStore.Exec
