import NixGrpcStore.Client.Runs
import NixGrpcStore.Lib.Acyclic

/-!
# The run does not deadlock

Jobs wait for one another without a cycle, so if any job is left then one of them waits for nothing
and is with the scheduler or with a worker.  Once the scheduler is given up, the latter only.
-/

namespace NixGrpcStore.Exec

open Executor Tally Acyclic

variable {strict : Prop} {cfg : Config} {exe : Executor} {named : List (JobId × JobId)}
  {thrown : List JobId} {history : List (Call × List (JobId × JobId))}

/-! ## Giving up the scheduler -/

/-- A job that is given a result has it in the end. -/
theorem settle_done {jid : JobId} {job : Job} (found : exe.jobs[jid]? = some job)
    (live : job.state.kind ≠ .done) (result : Done) :
    (exe.settle jid result).stateAt jid = some (.done result) := by
  have ended : (exe.finish jid result).stateAt jid = some (.done result) := by
    simp [stateAt, finish_found found]
  have round := Moves.later (@ended_moves job True exe [] [] jid found result [])
  have rest := Moves.later (@settleLoop_moves True [] [] (exe.settleOne jid result []).1
    (exe.settleOne jid result []).2)
  rw [settle, settleLoop_live found live]
  exact rest.done jid result (round.done jid result ended)

theorem abandonOne_placed (jid : JobId) : ¬ Unplaced (exe.abandonOne jid) jid := by
  have ended : ∀ kind, kind ≠ .done → exe.kindAt jid = some kind →
      ¬ Unplaced (exe.settle jid lostDone) jid := by
    intro kind live kind_eq
    obtain ⟨job, found, rfl⟩ := exists_of_kindAt kind_eq
    simp [Unplaced, kindAt, settle_done found live]
  unfold abandonOne
  split
  · rename_i wantable
    exact ended .wantable (by simp) wantable
  · rename_i wanted
    exact ended .wanted (by simp) wanted
  · rename_i no_wantable no_wanted
    exact fun unplaced => unplaced.elim no_wantable no_wanted

/-- The loop in `abandon` leaves no job it looked at to be placed, and makes none so. -/
theorem foldl_abandonOne (ids : List JobId) (exe : Executor) (left : exe.abandoned = true) {jid : JobId}
    (unplaced : Unplaced (ids.foldl abandonOne exe) jid) : Unplaced exe jid ∧ jid ∉ ids := by
  induction ids generalizing exe with
  | nil => exact ⟨unplaced, by simp⟩
  | cons first ids ih =>
    have later := Moves.later (@abandonOne_moves True [] [] exe first)
    obtain ⟨before, outside⟩ := ih (exe.abandonOne first) (later.abandoned_eq.trans left) unplaced
    refine ⟨later.unplaced left jid before, ?_⟩
    rw [List.mem_cons]
    rintro (rfl | inside)
    · exact abandonOne_placed jid before
    · exact outside inside

/-- After `abandon` no job is left for the scheduler to place. -/
theorem abandon_placed (jid : JobId) : ¬ Unplaced exe.abandon jid := by
  intro unplaced
  obtain ⟨before, outside⟩ := foldl_abandonOne _ { exe with abandoned := true } rfl unplaced
  have inside : jid < exe.jobs.length := by
    rcases before with wantable | wanted
    · obtain ⟨job, found, -⟩ := exists_of_kindAt wantable
      exact lt_length found
    · obtain ⟨job, found, -⟩ := exists_of_kindAt wanted
      exact lt_length found
  exact outside (List.mem_range.mpr inside)

/-! ## Waiting without a cycle -/

/-- Whether the inputs a call names exist, and do not wait for the job they are named for. -/
def Call.Founded (exe : Executor) : Call → Prop
  | .add _ inputs => ∀ input ∈ inputs, input < exe.jobs.length
  | .blockOn jid input =>
    input < exe.jobs.length ∧ input ≠ jid ∧ ¬ Relation.TransGen (WaitsFor exe) input jid
  | _ => True

theorem Call.Founded.proper {call : Call} (founded : call.Founded exe) : call.Proper exe := by
  cases call with
  | add prio inputs => exact founded
  | _ => trivial

/-- What a call names leads to no cycle. -/
theorem Call.Founded.apart {call : Call} (founded : call.Founded exe) :
    ∃ jid, ∀ edge ∈ call.names exe, edge.1 = jid ∧ ¬ Relation.ReflTransGen (WaitsFor exe) edge.2 jid := by
  cases call with
  | add prio inputs =>
    refine ⟨exe.jobs.length, ?_⟩
    simp only [Call.names, List.mem_map]
    rintro edge ⟨input, inside, rfl⟩
    refine ⟨rfl, fun path => ?_⟩
    rcases Relation.ReflTransGen.cases_tail path with same | ⟨before, -, needed, found, -, -⟩
    · exact absurd (founded input inside) (Nat.not_lt.mpr same.le)
    · exact absurd (lt_length found) (Nat.lt_irrefl _)
  | blockOn jid input =>
    refine ⟨jid, ?_⟩
    intro edge inside
    simp only [Call.names] at inside
    split at inside
    · obtain rfl := List.mem_singleton.mp inside
      obtain ⟨-, differs, unrelated⟩ := founded
      refine ⟨rfl, fun path => ?_⟩
      rcases Relation.reflTransGen_iff_eq_or_transGen.mp path with same | path
      · exact differs same.symm
      · exact unrelated path
    · simp at inside
  | _ => exact ⟨0, by simp [Call.names]⟩

/-- The books are in order, nobody waits in a cycle, and the jobs whose `add` threw have ended. -/
structure Untangled (exe : Executor) (named : List (JobId × JobId)) (thrown : List JobId) : Prop where
  ledger : Ledger (between exe named thrown)
  acyclic : NoCycle (WaitsFor exe)
  ended : ∀ jid ∈ thrown, exe.kindAt jid = some .done

theorem Untangled.call (untangled : Untangled exe named thrown) {call : Call} (allowed : call.allowed exe)
    (founded : call.Founded exe) : Untangled (call.perform exe) (named ++ call.names exe) thrown := by
  obtain ⟨thrown', ledger', later, kept⟩ := call.ledger untangled.ledger allowed
  obtain rfl := kept founded.proper
  refine ⟨ledger', ?_, ?_⟩
  · have started : ∀ jid input, WaitsFor (call.start exe) jid input → WaitsFor exe jid input := by
      intro jid input
      rw [WaitsFor, call.start_jobs]
      exact id
    obtain ⟨jid, apart⟩ := founded.apart
    obtain ⟨more, named_eq, waits⟩ := later.waits
    obtain rfl : call.names exe = more := List.append_cancel_left named_eq
    refine @NoCycle.extend _ _ _ untangled.acyclic jid (fun input => (jid, input) ∈ call.names exe) ?_ ?_
    · intro waiter input now
      rcases waits waiter input now with before | new
      · exact .inl (started waiter input before)
      · obtain ⟨rfl, -⟩ := apart _ new
        exact .inr ⟨rfl, new⟩
    · exact fun input inside => (apart _ inside).2
  · intro jid inside
    obtain ⟨job, found, kind_eq⟩ := exists_of_kindAt (untangled.ended jid inside)
    cases state_eq : job.state with
    | done result =>
      have before : (call.start exe).stateAt jid = some (.done result) := by
        rw [stateAt, call.start_jobs, found, Option.map_some, state_eq]
      exact congrArg (Option.map JobState.kind) (later.done jid result before)
    | _ => simp [state_eq] at kind_eq

/-- A blocked job waits for one that is not done. -/
theorem Untangled.waits (untangled : Untangled exe named thrown) {jid : JobId}
    (blocked : exe.kindAt jid = some .blocked) : ∃ input, WaitsFor exe jid input := by
  obtain ⟨job, found, kind_eq⟩ := exists_of_kindAt blocked
  have kept : jid ∉ thrown := by
    intro inside
    cases blocked.symm.trans (untangled.ended jid inside)
  cases state_eq : job.state with
  | blocked waiting =>
    obtain ⟨counted, held, -⟩ :=
      (untangled.ledger.fits jid job found (by simp [kind_eq])).waits waiting state_eq
    have positive : 0 < tally (countsFor jid) exe.jobs := by
      refine Nat.pos_of_ne_zero fun zero => ?_
      have none_due : waiting = 0 := by simpa [Stage.due, between, zero] using counted kept
      simpa [Stage.Held, between] using held kept none_due
    obtain ⟨input, needed, needs, counts⟩ := tally_pos positive
    have live : needed.state.kind ≠ .done := fun ended => by simp [countsFor, ended] at counts
    rw [countsFor, if_neg live] at counts
    exact ⟨input, needed, needs, live, List.count_pos_iff.mp counts⟩
  | _ => simp [state_eq] at kind_eq

/-- As long as a job is left, one of them does not wait. -/
theorem Untangled.moves_on (untangled : Untangled exe named thrown) (left : 0 < exe.remaining) :
    ∃ jid kind, exe.kindAt jid = some kind ∧ kind ≠ .blocked ∧ kind ≠ .done := by
  let live : Set JobId := { jid | ∃ kind, exe.kindAt jid = some kind ∧ kind ≠ .done }
  have finite : live.Finite := by
    refine (Set.finite_Iio exe.jobs.length).subset ?_
    rintro jid ⟨kind, kind_eq, -⟩
    obtain ⟨job, found, -⟩ := exists_of_kindAt kind_eq
    exact lt_length found
  have inhabited : live.Nonempty := by
    have counted : 0 < tally countsLive exe.jobs := untangled.ledger.remaining_eq ▸ left
    obtain ⟨jid, job, found, counts⟩ := tally_pos counted
    refine ⟨jid, job.state.kind, kindAt_of_found found, fun ended => ?_⟩
    simp [countsLive, ended] at counts
  obtain ⟨jid, ⟨kind, kind_eq, unended⟩, last⟩ := untangled.acyclic.exists_last finite inhabited
  refine ⟨jid, kind, kind_eq, ?_, unended⟩
  rintro rfl
  obtain ⟨input, needed, needs, needed_live, inside⟩ := untangled.waits kind_eq
  exact last input ⟨_, kindAt_of_found needs, needed_live⟩ ⟨needed, needs, needed_live, inside⟩

/-- What holds between two calls of a run without cycles. -/
structure Flows (exe : Executor) (history : List (Call × List (JobId × JobId))) : Prop where
  ledger : Ledger (between exe (namedIn history) [])
  acyclic : NoCycle (WaitsFor exe)
  abandoned : Call.abandon ∈ history.map Prod.fst → exe.abandoned = true
  placed : exe.abandoned = true → ∀ jid, ¬ Unplaced exe jid

theorem Flows.untangled (flows : Flows exe history) : Untangled exe (namedIn history) [] :=
  ⟨flows.ledger, flows.acyclic, nofun⟩

theorem Flows.call (flows : Flows exe history) {call : Call} (allowed : call.allowed exe)
    (founded : call.Founded exe) :
    Flows (call.perform exe) (history ++ [(call, call.names exe)]) := by
  have untangled := flows.untangled.call allowed founded
  obtain ⟨_, _, later, _⟩ := call.ledger flows.ledger allowed
  refine ⟨by simpa [namedIn] using untangled.ledger, untangled.acyclic, ?_, ?_⟩
  · intro gave_up
    rw [show (call.perform exe).abandoned = (call.start exe).abandoned from later.abandoned_eq]
    cases call with
    | abandon => rfl
    | _ => exact flows.abandoned (by simpa using gave_up)
  · intro left jid
    have left' : (call.start exe).abandoned = true := later.abandoned_eq.symm.trans left
    cases call with
    | abandon => exact abandon_placed jid
    | _ => exact fun now => flows.placed left' jid (later.unplaced left' jid now)

theorem Reached.flows (reached : Reached Call.Founded cfg exe history) : Flows exe history := by
  refine Run.Reached.invariant (P := Flows) ?_ ?_ reached
  · rintro exe rfl
    refine ⟨ledger_start cfg, ?_, by simp, by simp⟩
    intro jid cycle
    obtain ⟨input, ⟨needed, found, -⟩, -⟩ := Relation.TransGen.head'_iff.mp cycle
    simp at found
  · rintro exe history out exe' flows ⟨call, rfl, allowed, founded, rfl⟩
    exact flows.call allowed founded

/-- The client run cannot deadlock: while a job is left, some job is with the scheduler or with a
worker, and once the scheduler is given up, with a worker. -/
theorem run_cannot_deadlock (reached : Reached Call.Founded cfg exe history) :
    (0 < exe.remaining → ∃ jid, exe.kindAt jid = some .wantable ∨ exe.kindAt jid = some .wanted ∨
      exe.kindAt jid = some .assigned ∨ exe.kindAt jid = some .running) ∧
    (Call.abandon ∈ history.map Prod.fst →
      (∀ jid kind, exe.kindAt jid = some kind → kind ≠ .done →
        kind = .blocked ∨ kind = .assigned ∨ kind = .running) ∧
      ((∀ jid, exe.kindAt jid ≠ some .assigned ∧ exe.kindAt jid ≠ some .running) → exe.remaining = 0)) := by
  have flows := reached.flows
  refine ⟨fun left => ?_, fun gave_up => ⟨?_, fun idle => ?_⟩⟩
  · obtain ⟨jid, kind, kind_eq, unblocked, live⟩ := flows.untangled.moves_on left
    refine ⟨jid, ?_⟩
    cases kind with
    | blocked => exact absurd rfl unblocked
    | done => exact absurd rfl live
    | _ => simp [kind_eq]
  · intro jid kind kind_eq live
    have placed := flows.placed (flows.abandoned gave_up) jid
    cases kind with
    | wantable => exact absurd (.inl kind_eq) placed
    | wanted => exact absurd (.inr kind_eq) placed
    | done => exact absurd rfl live
    | _ => simp
  · by_contra unfinished
    obtain ⟨jid, kind, kind_eq, unblocked, live⟩ := flows.untangled.moves_on (Nat.pos_of_ne_zero unfinished)
    have placed := flows.placed (flows.abandoned gave_up) jid
    cases kind with
    | blocked => exact unblocked rfl
    | wantable => exact placed (.inl kind_eq)
    | wanted => exact placed (.inr kind_eq)
    | assigned => exact (idle jid).1 kind_eq
    | running => exact (idle jid).2 kind_eq
    | done => exact live rfl

/-- A job that no other one lists waits for none. -/
theorem not_waitsFor {jid : JobId} (unlisted : ∀ job ∈ exe.jobs, jid ∉ job.dependants) (input : JobId) :
    ¬ Relation.TransGen (WaitsFor exe) jid input := by
  intro path
  obtain ⟨first, ⟨needed, found, -, inside⟩, -⟩ := Relation.TransGen.head'_iff.mp path
  exact unlisted needed (List.mem_of_getElem? found) inside

/-- A build that runs turns out to need another one. -/
def recovered : List Call :=
  [.add 1 [], .connected, .takeWants [0], .onAssigned 0 { addr := "w" }, .next, .add 2 [], .blockOn 0 1]

theorem recovered_made : Made Call.Founded { cfg := {} } recovered := by
  refine ⟨by decide +kernel, by simp [Call.Founded], trivial, trivial, by decide +kernel, trivial, trivial, trivial,
    trivial, trivial, by decide +kernel, by simp [Call.Founded], trivial, ⟨by decide +kernel, by decide, ?_⟩,
    trivial⟩
  exact not_waitsFor (by decide +kernel) 0

theorem run_cannot_deadlock_recovered : ∃ exe history, Reached Call.Founded {} exe history ∧
    exe.remaining = 2 ∧ exe.kindAt 0 = some .blocked ∧ exe.kindAt 1 = some .wantable ∧
    ∃ jid, exe.kindAt jid = some .wantable ∨ exe.kindAt jid = some .wanted ∨
      exe.kindAt jid = some .assigned ∨ exe.kindAt jid = some .running := by
  have start : Reached Call.Founded {} { cfg := {} } [] := .start rfl
  obtain ⟨history, reached, -⟩ := start.made recovered recovered_made
  exact ⟨_, history, reached, by decide +kernel, by decide +kernel, by decide +kernel,
    (run_cannot_deadlock reached).1 (by decide +kernel)⟩

end NixGrpcStore.Exec
