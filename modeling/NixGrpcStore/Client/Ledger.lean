import NixGrpcStore.Client.Moves

/-!
# The executor's books

The counters count what they are named for, every job is in the list its state calls for exactly
once, and a blocked job waits for as many inputs as have yet to tell it that they ended.  Inside a
call, a job may also wait for nothing while it is in hand or its result waits.
-/

namespace NixGrpcStore.Exec

open Executor Tally

/-- A job that has not ended. -/
def countsLive (job : Job) : ℕ := if job.state.kind = .done then 0 else 1

/-- A job that takes a build thread. -/
def countsActive (job : Job) : ℕ := if job.state.kind.isActive then 1 else 0

/-- How often a job that has not ended will tell another one. -/
def countsFor (jid : JobId) (job : Job) : ℕ :=
  if job.state.kind = .done then 0 else job.dependants.count jid

/-- How often a job is still to be told that an input ended. -/
def Stage.due (S : Stage) (jid : JobId) : ℕ :=
  tally (countsFor jid) S.exe.jobs + (S.owed.map Owed.dep).count jid

/-- A job that is about to leave the blocked state. -/
def Stage.Held (S : Stage) (jid : JobId) : Prop := S.hand = some jid ∨ ∃ result, (jid, result) ∈ S.work

/-- What the count of a blocked job means.  If its `add` threw, the count was never set, and runs
below zero when inputs end. -/
structure Waits (S : Stage) (jid : JobId) (waiting : ℕ) : Prop where
  counted : jid ∉ S.thrown → waiting = S.due jid
  held : jid ∉ S.thrown → waiting = 0 → S.Held jid
  wrapped : jid ∈ S.thrown → S.due jid ≤ maxSize ∧ (waiting = 0 ∨ 2 ^ 64 + S.due jid ≤ waiting + maxSize)

/-- A job that has not ended is where its state says. -/
structure Fits (S : Stage) (jid : JobId) (state : JobState) : Prop where
  wantable_eq : S.exe.wantable.count jid = if state.kind = .wantable then 1 else 0
  ready_eq : S.exe.ready.count jid = if state.kind = .assigned then 1 else 0
  free : state.kind ≠ .blocked → S.due jid = 0 ∧ jid ∉ S.thrown
  waits : ∀ waiting, state = .blocked waiting → Waits S jid waiting

/-- The invariant of the executor's counters and lists. -/
structure Ledger (S : Stage) : Prop where
  remaining_eq : S.exe.remaining = tally countsLive S.exe.jobs
  active_eq : S.exe.active = tally countsActive S.exe.jobs
  active_le : S.exe.active ≤ S.exe.cfg.threads
  fits : ∀ jid job, S.exe.jobs[jid]? = some job → job.state.kind ≠ .done → Fits S jid job.state
  absent : ∀ jid, S.exe.jobs.length ≤ jid → S.exe.wantable.count jid = 0 ∧
    S.exe.ready.count jid = 0 ∧ S.due jid = 0 ∧ jid ∉ S.thrown
  hand : ∀ jid, S.hand = some jid → jid ∉ S.thrown

/-- Nothing that is said about a job changes. -/
structure Same (S S' : Stage) (jid : JobId) : Prop where
  due_eq : S'.due jid = S.due jid
  wantable_eq : S'.exe.wantable.count jid = S.exe.wantable.count jid
  ready_eq : S'.exe.ready.count jid = S.exe.ready.count jid
  thrown_iff : jid ∈ S'.thrown ↔ jid ∈ S.thrown
  held : S.Held jid → S'.Held jid

variable {strict : Prop} {S S' : Stage} {jid : JobId}

theorem Fits.same {state : JobState} (fits : Fits S jid state) (same : Same S S' jid) :
    Fits S' jid state where
  wantable_eq := same.wantable_eq.trans fits.wantable_eq
  ready_eq := same.ready_eq.trans fits.ready_eq
  free := by
    rw [same.due_eq, same.thrown_iff]
    exact fits.free
  waits := by
    intro waiting state_eq
    obtain ⟨counted, held, wrapped⟩ := fits.waits waiting state_eq
    rw [← same.due_eq, ← same.thrown_iff] at counted wrapped
    rw [← same.thrown_iff] at held
    exact ⟨counted, fun kept zero => same.held (held kept zero), wrapped⟩

variable {job job' : Job}

/-- Only one job is affected. -/
theorem Ledger.write (ledger : Ledger S) (found' : S'.exe.jobs[jid]? = some job')
    (others : ∀ other x, other ≠ jid → S'.exe.jobs[other]? = some x →
      ∃ y, S.exe.jobs[other]? = some y ∧ x.state = y.state)
    (length_le : S.exe.jobs.length ≤ S'.exe.jobs.length)
    (same : ∀ other, other ≠ jid → Same S S' other)
    (remaining_eq : S'.exe.remaining = tally countsLive S'.exe.jobs)
    (active_eq : S'.exe.active = tally countsActive S'.exe.jobs)
    (active_le : S'.exe.active ≤ S'.exe.cfg.threads)
    (fits : job'.state.kind ≠ .done → Fits S' jid job'.state)
    (hand : ∀ other, S'.hand = some other → other ∉ S'.thrown) : Ledger S' where
  remaining_eq := remaining_eq
  active_eq := active_eq
  active_le := active_le
  fits := by
    intro other x found live
    by_cases this : other = jid
    · subst this
      cases found'.symm.trans found
      exact fits live
    · obtain ⟨y, found_y, state_eq⟩ := others other x this found
      rw [state_eq] at live ⊢
      exact (ledger.fits other y found_y live).same (same other this)
  absent := by
    intro other outside
    have this : other ≠ jid := by
      rintro rfl
      exact absurd (lt_length found') (Nat.not_lt.mpr outside)
    have unchanged := same other this
    rw [unchanged.wantable_eq, unchanged.ready_eq, unchanged.due_eq, unchanged.thrown_iff]
    exact ledger.absent other (length_le.trans outside)
  hand := hand

/-- As `Ledger.write`, for a job that is overwritten. -/
theorem Ledger.set (ledger : Ledger S)
    (found : S.exe.jobs[jid]? = some job) (jobs_eq : S'.exe.jobs = S.exe.jobs.set jid job')
    (same : ∀ other, other ≠ jid → Same S S' other)
    (remaining_eq : S'.exe.remaining + countsLive job = S.exe.remaining + countsLive job')
    (active_eq : S'.exe.active + countsActive job = S.exe.active + countsActive job')
    (active_le : S'.exe.active ≤ S'.exe.cfg.threads)
    (fits : job'.state.kind ≠ .done → Fits S' jid job'.state)
    (hand : ∀ other, S'.hand = some other → other ∉ S'.thrown) : Ledger S' := by
  have bound : jid < S.exe.jobs.length := lt_length found
  have found' : S'.exe.jobs[jid]? = some job' := by
    rw [jobs_eq]
    exact List.getElem?_set_self bound
  have live_moved := tally_set countsLive found job'
  have active_moved := tally_set countsActive found job'
  have live_before := ledger.remaining_eq
  have active_before := ledger.active_eq
  refine ledger.write found' ?_ (by simp [jobs_eq]) same ?_ ?_ active_le fits hand
  · intro other x this found_x
    rw [jobs_eq, List.getElem?_set_ne (Ne.symm this)] at found_x
    exact ⟨x, found_x, rfl⟩
  · rw [jobs_eq]
    omega
  · rw [jobs_eq]
    omega

/-- No job is written. -/
theorem Ledger.keep (ledger : Ledger S) (cfg_eq : S'.exe.cfg = S.exe.cfg)
    (jobs_eq : S'.exe.jobs = S.exe.jobs) (remaining_eq : S'.exe.remaining = S.exe.remaining)
    (active_eq : S'.exe.active = S.exe.active) (wantable_eq : S'.exe.wantable = S.exe.wantable)
    (ready_eq : S'.exe.ready = S.exe.ready) (thrown_eq : S'.thrown = S.thrown)
    (due_eq : ∀ jid, S.exe.kindAt jid ≠ some .done → S'.due jid = S.due jid)
    (held : ∀ jid job waiting, S.exe.jobs[jid]? = some job → job.state = .blocked waiting →
      jid ∉ S.thrown → waiting = 0 → S.Held jid → S'.Held jid)
    (hand : ∀ jid, S'.hand = some jid → jid ∉ S.thrown) : Ledger S' where
  remaining_eq := by rw [remaining_eq, jobs_eq, ledger.remaining_eq]
  active_eq := by rw [active_eq, jobs_eq, ledger.active_eq]
  active_le := by
    rw [active_eq, cfg_eq]
    exact ledger.active_le
  fits := by
    intro jid job found live
    rw [jobs_eq] at found
    obtain ⟨in_wantable, in_ready, free, waits⟩ := ledger.fits jid job found live
    have due : S'.due jid = S.due jid := by
      apply due_eq
      rw [kindAt_of_found found]
      simpa using live
    refine ⟨by rw [wantable_eq, in_wantable], by rw [ready_eq, in_ready], ?_, ?_⟩
    · rw [due, thrown_eq]
      exact free
    · intro waiting state_eq
      obtain ⟨counted, was_held, wrapped⟩ := waits waiting state_eq
      refine ⟨?_, ?_, ?_⟩
      · rw [due, thrown_eq]
        exact counted
      · rw [thrown_eq]
        exact fun kept zero => held jid job waiting found state_eq kept zero (was_held kept zero)
      · rw [due, thrown_eq]
        exact wrapped
  absent := by
    intro jid outside
    rw [jobs_eq] at outside
    have missing : S.exe.kindAt jid ≠ some .done := by
      intro kind_eq
      obtain ⟨job, found, -⟩ := exists_of_kindAt kind_eq
      exact absurd (lt_length found) (Nat.not_lt.mpr outside)
    rw [wantable_eq, ready_eq, due_eq jid missing, thrown_eq]
    exact ledger.absent jid outside
  hand := by
    rw [thrown_eq]
    exact hand

/-! ## One move -/

theorem decr_add_one {count : ℕ} (pos : 0 < count) : decr count + 1 = count := by
  cases count with
  | zero => simp at pos
  | succ count => rfl

theorem due_set (S' : Stage) (found : S.exe.jobs[jid]? = some job)
    (jobs_eq : S'.exe.jobs = S.exe.jobs.set jid job') (owed_eq : S'.owed = S.owed) {other : JobId}
    (same : countsFor other job' = countsFor other job) : S'.due other = S.due other := by
  have moved := tally_set (countsFor other) found job'
  simp only [Stage.due, jobs_eq, owed_eq]
  omega

theorem countsFor_of_live (deps_eq : job'.dependants = job.dependants)
    (live : job.state.kind ≠ .done) (live' : job'.state.kind ≠ .done) (other : JobId) :
    countsFor other job' = countsFor other job := by
  simp [countsFor, deps_eq, live, live']

variable {named : List (JobId × JobId)} {waiting : ℕ} {result : Done}

namespace Ledger

section Turns

variable (ledger : Ledger S)
include ledger

theorem active_pos (found : S.exe.jobs[jid]? = some job)
    (active : job.state.kind.isActive = true) : 0 < S.exe.active := by
  have counted := le_tally (f := countsActive) found
  rw [ledger.active_eq]
  simp only [countsActive, active, if_true] at counted
  omega

theorem turn {exe : Executor}
    (turned : Turn strict S.exe exe jid job job') : Ledger { S with exe := exe } := by
  have old := ledger.fits jid job turned.found turned.free.2
  have active_moved : exe.active + countsActive job = S.exe.active + countsActive job' := by
    rcases turned.active_eq with ⟨same, kinds⟩ | moved
    · simp [countsActive, same, kinds]
    · cases active : job.state.kind.isActive with
      | true =>
        have pos := decr_add_one (ledger.active_pos turned.found active)
        simp only [active, if_true] at moved
        simp only [countsActive, active, if_true]
        omega
      | false =>
        simp only [active, Bool.false_eq_true, if_false] at moved
        simp [countsActive, active, moved]
  have within := ledger.active_le
  have due_same : ∀ other, Stage.due { S with exe := exe } other = S.due other := fun other =>
    due_set { S with exe := exe } turned.found turned.jobs_eq rfl
      (countsFor_of_live turned.deps_eq turned.free.2 turned.free'.2 other)
  refine ledger.set turned.found turned.jobs_eq ?_ ?_ active_moved ?_ ?_ ledger.hand
  · intro other this
    have same_wantable := turned.wantable_eq other
    have same_ready := turned.ready_eq other
    simp only [Ne.symm this, false_and, if_false, Nat.add_zero] at same_wantable same_ready
    exact ⟨due_same other, same_wantable, same_ready, Iff.rfl, id⟩
  · rw [turned.remaining_eq]
    simp [countsLive, turned.free.2, turned.free'.2]
  · simp only [turned.cfg_eq]
    cases active' : job'.state.kind.isActive with
    | true =>
      rcases turned.active_lt active' with active | room
      · simp only [countsActive, active, active', if_true] at active_moved
        omega
      · simp only [countsActive, active', if_true] at active_moved
        omega
    | false =>
      simp only [countsActive, active', Bool.false_eq_true, if_false] at active_moved
      omega
  · intro live
    have moved_wantable := turned.wantable_eq jid
    have moved_ready := turned.ready_eq jid
    rw [old.wantable_eq] at moved_wantable
    rw [old.ready_eq] at moved_ready
    simp only [true_and] at moved_wantable moved_ready
    refine ⟨by simp only; omega, by simp only; omega, fun _ => ?_, ?_⟩
    · rw [due_same]
      exact old.free turned.free.1
    · intro waiting state_eq
      exact absurd (by rw [state_eq]; rfl) turned.free'.1

/-- The books do not see the flags. -/
theorem idle {exe : Executor} (idle : Idle strict S.exe exe) : Ledger { S with exe := exe } := by
  have tally_same : ∀ f : Job → ℕ, (∀ job, f job = f job.quiet) →
      tally f exe.jobs = tally f S.exe.jobs := by
    intro f sees
    have factored : ∀ jobs : List Job, jobs.map f = (jobs.map Job.quiet).map f := by
      intro jobs
      rw [List.map_map]
      exact List.map_congr_left fun job _ => sees job
    exact tally_congr (by rw [factored, idle.jobs_eq, ← factored])
  have length_eq : exe.jobs.length = S.exe.jobs.length := by
    simpa using congrArg List.length idle.jobs_eq
  have due_same : ∀ jid, Stage.due { S with exe := exe } jid = S.due jid := by
    intro jid
    simp only [Stage.due]
    rw [tally_same (countsFor jid) fun job => rfl]
  refine ⟨?_, ?_, ?_, ?_, ?_, ledger.hand⟩
  · simp only [idle.remaining_eq, ledger.remaining_eq]
    exact (tally_same countsLive fun job => rfl).symm
  · simp only [idle.active_eq, ledger.active_eq]
    exact (tally_same countsActive fun job => rfl).symm
  · simp only [idle.active_eq, idle.cfg_eq]
    exact ledger.active_le
  · intro jid job found live
    obtain ⟨job', found', state_eq, -, -⟩ := idle.found found
    rw [state_eq] at live ⊢
    have kind_eq := kindAt_of_found found'
    obtain ⟨in_wantable, in_ready, free, waits⟩ := ledger.fits jid job' found' live
    refine ⟨?_, ?_, ?_, ?_⟩
    · by_cases wantable : job'.state.kind = .wantable
      · rw [← in_wantable]
        exact idle.wantable_eq jid (by rw [kind_eq, wantable])
      · rw [if_neg wantable] at in_wantable ⊢
        exact Nat.le_zero.mp (in_wantable ▸ idle.wantable_le jid)
    · by_cases assigned : job'.state.kind = .assigned
      · rw [← in_ready]
        exact idle.ready_eq jid (by rw [kind_eq, assigned])
      · rw [if_neg assigned] at in_ready ⊢
        exact Nat.le_zero.mp (in_ready ▸ idle.ready_le jid)
    · rw [due_same]
      exact free
    · intro waiting blocked
      obtain ⟨counted, held, wrapped⟩ := waits waiting blocked
      exact ⟨by rw [due_same]; exact counted, held, by rw [due_same]; exact wrapped⟩
  · intro jid outside
    simp only [length_eq] at outside
    obtain ⟨in_wantable, in_ready, no_due, kept⟩ := ledger.absent jid outside
    refine ⟨?_, ?_, ?_, kept⟩
    · exact Nat.le_zero.mp (in_wantable ▸ idle.wantable_le jid)
    · exact Nat.le_zero.mp (in_ready ▸ idle.ready_le jid)
    · rw [due_same, no_due]

theorem settle {work : Work} (waits : S.work = (jid, result) :: work) (told : S.owed = [])
    (empty : S.hand = none) (found : S.exe.jobs[jid]? = some job) (live : job.state.kind ≠ .done) :
    Ledger { S with
      exe := S.exe.finish jid result
      work := work
      owed := job.dependants.map fun dep => ⟨dep, jid, !result.succeeded⟩ } := by
  have counted := le_tally (f := countsLive) found
  have live_eq : countsLive job = 1 := by simp [countsLive, live]
  have pos := @decr_add_one S.exe.remaining (by rw [ledger.remaining_eq]; omega)
  have within := ledger.active_le
  rw [finish_eq found]
  refine ledger.set found rfl ?_ ?_ ?_ ?_ ?_ ?_
  · -- what the job owed its dependants in the table it owes them now in the list
    intro other this
    have moved := tally_set (countsFor other) found { job with followed := false, state := .done result }
    have owes : countsFor other job = job.dependants.count other := by simp [countsFor, live]
    have owes' : countsFor other { job with followed := false, state := .done result } = 0 := by
      simp [countsFor]
    refine ⟨?_, rfl, rfl, Iff.rfl, ?_⟩
    · simp only [Stage.due, told, List.map_nil, List.count_nil, List.map_map, Function.comp_def, List.map_id']
      omega
    · rintro (holds | ⟨its, inside⟩)
      · exact .inl holds
      · rw [waits] at inside
        rcases List.mem_cons.mp inside with same | inside
        · exact absurd (Prod.mk.inj same).1 this
        · exact .inr ⟨its, inside⟩
  · simp only [countsLive, live, if_false, JobState.kind_done, if_true]
    omega
  · cases active : job.state.kind.isActive with
    | true =>
      have busy := decr_add_one (ledger.active_pos found active)
      simpa [countsActive, active] using busy
    | false => simp [countsActive, active]
  · cases active : job.state.kind.isActive with
    | true =>
      have busy := decr_add_one (ledger.active_pos found active)
      simp only [if_true]
      omega
    | false => simpa using within
  · intro live'
    simp at live'
  · intro other holds
    simp [empty] at holds

theorem pass {owed : Owed} {rest : List Owed} (owes : S.owed = owed :: rest)
    (unblocked : ∀ job, S.exe.jobs[owed.dep]? = some job → job.state.kind ≠ .blocked) :
    Ledger { S with owed := rest } := by
  have due_pos : 0 < S.due owed.dep := by
    simp only [Stage.due, owes, List.map_cons, List.count_cons_self]
    omega
  have ended : S.exe.kindAt owed.dep = some .done := by
    cases found : S.exe.jobs[owed.dep]? with
    | none =>
      have outside := (ledger.absent owed.dep (by simpa using found)).2.2.1
      omega
    | some job =>
      rw [kindAt_of_found found]
      by_contra live
      have free := (ledger.fits _ job found (by simpa using live)).free (unblocked job found)
      omega
  refine ledger.keep rfl rfl rfl rfl rfl rfl rfl ?_ (fun _ _ _ _ _ _ _ => id) ledger.hand
  intro jid live
  have differs : owed.dep ≠ jid := by
    rintro rfl
    exact live ended
  simp [Stage.due, owes, differs]

theorem tell {owed : Owed} {rest : List Owed} {dnt : Job}
    (owes : S.owed = owed :: rest) (empty : S.hand = none)
    (found : S.exe.jobs[owed.dep]? = some dnt) (state_eq : dnt.state = .blocked waiting) :
    Ledger { S with
      exe := { S.exe with jobs := S.exe.jobs.set owed.dep (tell owed.ended owed.failed dnt waiting) }
      owed := rest
      hand := if decr waiting = 0 then some owed.dep else none } := by
  obtain ⟨S', stage_eq⟩ : ∃ S' : Stage, S' = { S with
      exe := { S.exe with jobs := S.exe.jobs.set owed.dep (Executor.tell owed.ended owed.failed dnt waiting) }
      owed := rest
      hand := if decr waiting = 0 then some owed.dep else none } := ⟨_, rfl⟩
  rw [← stage_eq]
  have jobs_eq : S'.exe.jobs = S.exe.jobs.set owed.dep (Executor.tell owed.ended owed.failed dnt waiting) := by
    rw [stage_eq]
  have hand_eq : S'.hand = if decr waiting = 0 then some owed.dep else none := by rw [stage_eq]
  have thrown_eq : S'.thrown = S.thrown := by rw [stage_eq]
  have wantable_eq : S'.exe.wantable = S.exe.wantable := by rw [stage_eq]
  have ready_eq : S'.exe.ready = S.exe.ready := by rw [stage_eq]
  have old := ledger.fits _ dnt found (by simp [state_eq])
  obtain ⟨counted, held, wrapped⟩ := old.waits waiting state_eq
  have due_eq : ∀ other, S'.due other + (if owed.dep = other then 1 else 0) = S.due other := by
    intro other
    have moved := tally_set (countsFor other) found (Executor.tell owed.ended owed.failed dnt waiting)
    have same : countsFor other (Executor.tell owed.ended owed.failed dnt waiting) = countsFor other dnt := by
      simp [countsFor, Executor.tell, state_eq]
    simp only [Stage.due, jobs_eq, owes, List.map_cons, List.count_cons, beq_iff_eq]
    rw [stage_eq]
    simp only
    omega
  have due_own := due_eq owed.dep
  rw [if_pos rfl] at due_own
  -- the count of a job whose `add` threw does not come down to zero
  have positive : owed.dep ∈ S.thrown → decr waiting ≠ 0 := by
    intro threw
    obtain ⟨due_le, zero | large⟩ := wrapped threw
    · simp [zero, decr]
    · unfold maxSize at large
      have stepped := @decr_add_one waiting (by omega)
      omega
  have within := ledger.active_le
  refine ledger.set found jobs_eq ?_ ?_ ?_ (by rw [stage_eq]; exact within) ?_ ?_
  · intro other this
    have due_same := due_eq other
    rw [if_neg (Ne.symm this), Nat.add_zero] at due_same
    refine ⟨due_same, by rw [wantable_eq], by rw [ready_eq], by rw [thrown_eq], ?_⟩
    rintro (holds | inside)
    · simp [empty] at holds
    · exact .inr (by rw [stage_eq]; exact inside)
  · rw [stage_eq]
    simp [countsLive, Executor.tell, state_eq]
  · rw [stage_eq]
    simp [countsActive, Executor.tell, state_eq]
  · intro _
    refine ⟨?_, ?_, ?_, ?_⟩
    · rw [stage_eq]
      simpa [Executor.tell, state_eq] using old.wantable_eq
    · rw [stage_eq]
      simpa [Executor.tell, state_eq] using old.ready_eq
    · simp [Executor.tell]
    · intro waiting' state_eq'
      obtain rfl : decr waiting = waiting' := by simpa [Executor.tell] using state_eq'
      rw [← thrown_eq] at counted wrapped
      refine ⟨fun kept => ?_, fun kept zero => ?_, fun threw => ?_⟩
      · have whole := counted kept
        have stepped := @decr_add_one waiting (by omega)
        omega
      · exact .inl (by simp [hand_eq, zero])
      · obtain ⟨due_le, zero | large⟩ := wrapped threw
        · refine ⟨by omega, .inr ?_⟩
          simp only [zero, decr]
          omega
        · have stepped := @decr_add_one waiting (by unfold maxSize at large; omega)
          refine ⟨by omega, .inr (by omega)⟩
  · intro other holds
    rw [hand_eq] at holds
    rw [thrown_eq]
    by_cases zero : decr waiting = 0
    · rw [if_pos zero] at holds
      cases holds
      exact fun threw => positive threw zero
    · simp [zero] at holds

theorem unblock (holds : S.hand = some jid)
    (found : S.exe.jobs[jid]? = some job) (state_eq : job.state = .blocked 0) :
    Ledger { S with
      exe := { S.exe.toState jid .wantable with wantable := S.exe.wantable ++ [jid] }
      hand := none } := by
  have kept := ledger.hand jid holds
  have old := ledger.fits jid job found (by simp [state_eq])
  have no_due := (old.waits 0 state_eq).counted kept
  have jobs_eq : (S.exe.toState jid .wantable).jobs = S.exe.jobs.set jid { job with state := .wantable } := by
    rw [toState_eq found]
  have due_eq : ∀ other, Stage.due { S with
      exe := { S.exe.toState jid .wantable with wantable := S.exe.wantable ++ [jid] }
      hand := none } other = S.due other := fun other =>
    due_set { S with
      exe := { S.exe.toState jid .wantable with wantable := S.exe.wantable ++ [jid] }
      hand := none } found jobs_eq rfl (by simp [countsFor, state_eq])
  refine ledger.set found jobs_eq ?_ ?_ ?_ ?_ ?_ ?_
  · intro other this
    refine ⟨due_eq other, ?_, by rw [toState_eq found], Iff.rfl, ?_⟩
    · simp [List.count_append, Ne.symm this]
    · rintro (other_holds | inside)
      · exact absurd (Option.some.inj (other_holds.symm.trans holds)) this
      · exact .inr inside
  · simp [toState_eq found, countsLive, state_eq]
  · simp [toState_eq found, countsActive, state_eq]
  · simpa [toState_eq found, state_eq] using ledger.active_le
  · intro _
    have no_wantable := old.wantable_eq
    have no_ready := old.ready_eq
    simp only [state_eq, JobState.kind_blocked, reduceCtorEq, if_false] at no_wantable no_ready
    refine ⟨?_, ?_, fun _ => ⟨?_, kept⟩, ?_⟩
    · simp [List.count_append, no_wantable]
    · simpa [toState_eq found] using no_ready
    · rw [due_eq, ← no_due]
    · intro waiting state_eq'
      simp at state_eq'
  · intro other other_holds
    simp at other_holds

theorem hold (holds : S.hand = some jid) :
    Ledger { S with work := (jid, result) :: S.work, hand := none } := by
  refine ledger.keep rfl rfl rfl rfl rfl rfl rfl (fun _ _ => rfl) ?_ (by simp)
  rintro other job waiting - - - - (other_holds | ⟨its, inside⟩)
  · cases other_holds.symm.trans holds
    exact .inr ⟨result, by simp⟩
  · exact .inr ⟨its, by simp [inside]⟩

theorem stop :
    Ledger { S with exe := (S.exe.stopAll S.work).1, work := (S.exe.stopAll S.work).2 } := by
  refine ledger.keep rfl rfl rfl rfl rfl rfl rfl (fun _ _ => rfl) ?_ ledger.hand
  rintro other job waiting - - - - (other_holds | ⟨its, inside⟩)
  · exact .inl other_holds
  · exact .inr ⟨its, by simp [stopAll, inside]⟩

theorem begin (idle : S.work = []) : Ledger { S with work := [(jid, result)] } := by
  refine ledger.keep rfl rfl rfl rfl rfl rfl rfl (fun _ _ => rfl) ?_ ledger.hand
  rintro other job waiting - - - - (other_holds | ⟨its, inside⟩)
  · exact .inl other_holds
  · simp [idle] at inside

theorem drop {work : Work} (waits : S.work = (jid, result) :: work)
    (late : ∀ job, S.exe.jobs[jid]? = some job → job.state.kind = .done) :
    Ledger { S with work := work } := by
  refine ledger.keep rfl rfl rfl rfl rfl rfl rfl (fun _ _ => rfl) ?_ ledger.hand
  rintro other job waiting found state_eq - - (other_holds | ⟨its, inside⟩)
  · exact .inl other_holds
  · rw [waits] at inside
    rcases List.mem_cons.mp inside with same | inside
    · obtain ⟨rfl, -⟩ := Prod.mk.inj same
      have := late job found
      simp [state_eq] at this
    · exact .inr ⟨its, inside⟩

theorem leave (holds : S.hand = some jid) (found : S.exe.jobs[jid]? = some job)
    (state_eq : job.state = .blocked (waiting + 1)) : Ledger { S with hand := none } := by
  refine ledger.keep rfl rfl rfl rfl rfl rfl rfl (fun _ _ => rfl) ?_ (by simp)
  rintro other job' waiting' found' state_eq' - zero (other_holds | inside)
  · cases other_holds.symm.trans holds
    cases found.symm.trans found'
    rw [state_eq] at state_eq'
    simp [zero] at state_eq'
  · exact .inr inside

end Turns

theorem start {exe : Executor} {thrown : List JobId} (ledger : Ledger (between exe named thrown))
    (call : Call) : Ledger (between (call.start exe) named thrown) := by
  cases call with
  | abandon =>
    exact ledger.keep rfl rfl rfl rfl rfl rfl rfl (fun _ _ => rfl) (fun _ _ _ _ _ _ _ => id) ledger.hand
  | _ => exact ledger

theorem unfollow (ledger : Ledger S) : Ledger { S with exe := S.exe.unfollow jid } :=
  ledger.idle (unfollow_idle jid)

theorem create (prio : ℚ) (ledger : Ledger S) (empty : S.hand = none) (unused : S.work = []) :
    Ledger { S with exe := S.exe.push prio, hand := some S.exe.jobs.length } := by
  obtain ⟨no_wantable, no_ready, no_due, kept⟩ := ledger.absent S.exe.jobs.length le_rfl
  have due_eq : ∀ jid, Stage.due { S with exe := S.exe.push prio, hand := some S.exe.jobs.length } jid =
      S.due jid := by
    intro jid
    simp [Stage.due, push, countsFor]
  have fresh : (S.exe.push prio).jobs[S.exe.jobs.length]? = some { state := .blocked 0, prio := prio } := by
    simp [push]
  refine ledger.write fresh ?_ (by simp [push]) ?_ ?_ ?_ ledger.active_le ?_ ?_
  · intro other x this found
    exact ⟨x, (push_cases found).resolve_right fun new => this new.1, rfl⟩
  · intro other this
    refine ⟨due_eq other, rfl, rfl, Iff.rfl, ?_⟩
    rintro (holds | ⟨its, inside⟩)
    · simp [empty] at holds
    · simp [unused] at inside
  · simp [push, ledger.remaining_eq, countsLive]
  · simp [push, ledger.active_eq, countsActive]
  · intro _
    refine ⟨?_, ?_, by simp, ?_⟩
    · simpa [push] using no_wantable
    · simpa [push] using no_ready
    · intro waiting state_eq
      obtain rfl : 0 = waiting := by simpa using state_eq
      exact ⟨fun _ => by rw [due_eq, no_due], fun _ _ => .inl rfl, fun threw => absurd threw kept⟩
  · intro other holds
    cases holds
    exact kept

theorem block (ledger : Ledger S) (empty : S.hand = none)
    (unused : S.work = []) (found : S.exe.jobs[jid]? = some job) (running : job.state.kind = .running) :
    Ledger { S with exe := S.exe.toState jid (.blocked 0), hand := some jid } := by
  have old := ledger.fits jid job found (by simp [running])
  obtain ⟨no_due, kept⟩ := old.free (by simp [running])
  have busy := decr_add_one (ledger.active_pos found (by simp [running]))
  have jobs_eq : (S.exe.toState jid (.blocked 0)).jobs = S.exe.jobs.set jid { job with state := .blocked 0 } := by
    rw [toState_eq found]
  have due_eq : ∀ other,
      Stage.due { S with exe := S.exe.toState jid (.blocked 0), hand := some jid } other = S.due other :=
    fun other => due_set { S with exe := S.exe.toState jid (.blocked 0), hand := some jid } found jobs_eq rfl
      (by simp [countsFor, running])
  have within := ledger.active_le
  refine ledger.set found jobs_eq ?_ ?_ ?_ ?_ ?_ ?_
  · intro other this
    refine ⟨due_eq other, by rw [toState_eq found], by rw [toState_eq found], Iff.rfl, ?_⟩
    rintro (holds | ⟨its, inside⟩)
    · simp [empty] at holds
    · simp [unused] at inside
  · simp [toState_eq found, countsLive, running]
  · simpa [toState_eq found, countsActive, running] using busy
  · simp only [toState_eq found, running, Kind.isActive_running, if_true, JobState.kind_blocked,
      Kind.isActive_blocked, Bool.false_eq_true, if_false]
    omega
  · intro _
    have no_wantable := old.wantable_eq
    have no_ready := old.ready_eq
    simp only [running, reduceCtorEq, if_false] at no_wantable no_ready
    refine ⟨?_, ?_, by simp, ?_⟩
    · simpa [toState_eq found] using no_wantable
    · simpa [toState_eq found] using no_ready
    · intro waiting state_eq
      obtain rfl : 0 = waiting := by simpa using state_eq
      exact ⟨fun _ => by rw [due_eq, no_due], fun _ _ => .inl rfl, fun threw => absurd threw kept⟩
  · intro other holds
    cases holds
    exact kept

theorem meet
    (ledger : Ledger S) (found : S.exe.jobs[jid]? = some job) (state_eq : job.state = .blocked waiting)
    (state_eq' : job'.state = .blocked waiting) (deps_eq : job'.dependants = job.dependants) :
    Ledger { S with exe := { S.exe with jobs := S.exe.jobs.set jid job' }, named := named } := by
  have old := ledger.fits jid job found (by simp [state_eq])
  have due_eq : ∀ other, Stage.due { S with
      exe := { S.exe with jobs := S.exe.jobs.set jid job' }, named := named } other = S.due other :=
    fun other => due_set { S with
      exe := { S.exe with jobs := S.exe.jobs.set jid job' }, named := named } found rfl rfl
      (countsFor_of_live deps_eq (by simp [state_eq]) (by simp [state_eq']) other)
  refine ledger.set found rfl ?_ ?_ ?_ ledger.active_le ?_ ledger.hand
  · exact fun other _ => ⟨due_eq other, rfl, rfl, Iff.rfl, id⟩
  · simp [countsLive, state_eq, state_eq']
  · simp [countsActive, state_eq, state_eq']
  · intro _
    rw [state_eq', ← state_eq]
    exact old.same ⟨due_eq jid, rfl, rfl, Iff.rfl, id⟩

theorem throw (ledger : Ledger S) (holds : S.hand = some jid) (found : S.exe.jobs[jid]? = some job)
    (state_eq : job.state = .blocked waiting) (bounded : waiting ≤ maxSize) :
    Ledger { S with
      exe := { S.exe with jobs := S.exe.jobs.set jid { job with state := .blocked 0 } }
      hand := none
      named := named
      thrown := jid :: S.thrown } := by
  have kept := ledger.hand jid holds
  have old := ledger.fits jid job found (by simp [state_eq])
  have counted := (old.waits waiting state_eq).counted kept
  have due_eq : ∀ other, Stage.due { S with
      exe := { S.exe with jobs := S.exe.jobs.set jid { job with state := .blocked 0 } }
      hand := none
      named := named
      thrown := jid :: S.thrown } other = S.due other :=
    fun other => due_set { S with
      exe := { S.exe with jobs := S.exe.jobs.set jid { job with state := .blocked 0 } }
      hand := none
      named := named
      thrown := jid :: S.thrown } found rfl rfl (by simp [countsFor, state_eq])
  refine ledger.set found rfl ?_ ?_ ?_ ledger.active_le ?_ (by simp)
  · intro other this
    refine ⟨due_eq other, rfl, rfl, by simp [this], ?_⟩
    rintro (other_holds | inside)
    · exact absurd (Option.some.inj (other_holds.symm.trans holds)) this
    · exact .inr inside
  · simp [countsLive, state_eq]
  · simp [countsActive, state_eq]
  · intro _
    have no_wantable := old.wantable_eq
    have no_ready := old.ready_eq
    simp only [state_eq, JobState.kind_blocked, reduceCtorEq, if_false] at no_wantable no_ready
    refine ⟨by simpa using no_wantable, by simpa using no_ready, by simp, ?_⟩
    intro waiting' state_eq'
    obtain rfl : 0 = waiting' := by simpa using state_eq'
    refine ⟨by simp, by simp, fun _ => ⟨?_, .inl rfl⟩⟩
    rw [due_eq]
    omega

theorem link {input : JobId} {needed : Job} (ledger : Ledger S) (holds : S.hand = some jid)
    (found : S.exe.jobs[jid]? = some job) (state_eq : job.state = .blocked waiting)
    (needs : S.exe.jobs[input]? = some needed) (live : needed.state.kind ≠ .done) :
    Ledger { S with
      exe := { S.exe with
        jobs := (S.exe.jobs.modify input (Job.awaitedBy jid)).modify jid (Job.blockedBy (waiting + 1)) }
      named := named } := by
  have kept := ledger.hand jid holds
  have old := ledger.fits jid job found (by simp [state_eq])
  have counted := (old.waits waiting state_eq).counted kept
  obtain ⟨linked, linked_found, linked_eq⟩ : ∃ linked : Job,
      (S.exe.jobs.set input (needed.awaitedBy jid))[jid]? = some linked ∧ linked.state = job.state := by
    by_cases self : input = jid
    · subst self
      cases found.symm.trans needs
      exact ⟨_, List.getElem?_set_self (lt_length found), rfl⟩
    · exact ⟨job, by rw [List.getElem?_set_ne self]; exact found, rfl⟩
  have jobs_eq : (S.exe.jobs.modify input (Job.awaitedBy jid)).modify jid (Job.blockedBy (waiting + 1)) =
      (S.exe.jobs.set input (needed.awaitedBy jid)).set jid (linked.blockedBy (waiting + 1)) := by
    rw [modify_eq_set _ needs, modify_eq_set _ linked_found]
  rw [jobs_eq]
  have tally_eq : ∀ f : Job → ℕ, f (linked.blockedBy (waiting + 1)) = f linked →
      tally f ((S.exe.jobs.set input (needed.awaitedBy jid)).set jid (linked.blockedBy (waiting + 1))) +
        f needed = tally f S.exe.jobs + f (needed.awaitedBy jid) := by
    intro f same
    have first := tally_set f needs (needed.awaitedBy jid)
    have second := tally_set f linked_found (linked.blockedBy (waiting + 1))
    omega
  have blocked_kind : (linked.blockedBy (waiting + 1)).state.kind = linked.state.kind := by
    rw [linked_eq, state_eq]
    rfl
  have due_eq : ∀ other, Stage.due { S with
      exe := { S.exe with
        jobs := (S.exe.jobs.set input (needed.awaitedBy jid)).set jid (linked.blockedBy (waiting + 1)) }
      named := named } other = S.due other + if jid = other then 1 else 0 := by
    intro other
    have moved := tally_eq (countsFor other) (by simp [countsFor, linked_eq, state_eq, Job.blockedBy])
    have needed_eq : countsFor other (needed.awaitedBy jid) =
        countsFor other needed + if jid = other then 1 else 0 := by
      simp [countsFor, Job.awaitedBy, live, List.count_append, List.count_singleton]
    simp only [Stage.due]
    omega
  have bound : jid < S.exe.jobs.length := lt_length found
  have written : ((S.exe.jobs.set input (needed.awaitedBy jid)).set jid
      (linked.blockedBy (waiting + 1)))[jid]? = some (linked.blockedBy (waiting + 1)) :=
    List.getElem?_set_self (by simpa using bound)
  refine ledger.write written ?_ (by simp) ?_ ?_ ?_ ledger.active_le ?_ ledger.hand
  · intro other x this found_x
    simp only [List.getElem?_set_ne (Ne.symm this)] at found_x
    rcases set_cases found_x with ⟨rfl, rfl⟩ | ⟨-, found_x⟩
    · exact ⟨needed, needs, rfl⟩
    · exact ⟨x, found_x, rfl⟩
  · intro other this
    have due_same := due_eq other
    rw [if_neg (Ne.symm this)] at due_same
    exact ⟨due_same, rfl, rfl, Iff.rfl, id⟩
  · have moved := tally_eq countsLive (by simp [countsLive, blocked_kind])
    have same : countsLive (needed.awaitedBy jid) = countsLive needed := rfl
    simp only [ledger.remaining_eq]
    omega
  · have moved := tally_eq countsActive (by simp [countsActive, blocked_kind])
    have same : countsActive (needed.awaitedBy jid) = countsActive needed := rfl
    simp only [ledger.active_eq]
    omega
  · intro _
    have no_wantable := old.wantable_eq
    have no_ready := old.ready_eq
    simp only [state_eq, JobState.kind_blocked, reduceCtorEq, if_false] at no_wantable no_ready
    refine ⟨by simpa [Job.blockedBy] using no_wantable, by simpa [Job.blockedBy] using no_ready,
      by simp [Job.blockedBy], ?_⟩
    intro waiting' state_eq'
    obtain rfl : waiting + 1 = waiting' := by simpa [Job.blockedBy] using state_eq'
    refine ⟨fun _ => ?_, by simp, fun threw => absurd threw kept⟩
    rw [due_eq, if_pos rfl, ← counted]

end Ledger

/-- Every move keeps the books. -/
theorem Move.ledger (move : Move strict S S') (ledger : Ledger S) : Ledger S' := by
  cases move with
  | turn turned => exact ledger.turn turned
  | idle idle => exact ledger.idle idle
  | begin _ _ idle _ => exact ledger.begin idle
  | drop waits late => exact ledger.drop waits late
  | settle waits told empty found live => exact ledger.settle waits told empty found live
  | pass owes unblocked => exact ledger.pass owes unblocked
  | tell owes empty found state_eq => exact ledger.tell owes empty found state_eq
  | unblock holds found state_eq _ _ _ => exact ledger.unblock holds found state_eq
  | hold holds _ _ _ => exact ledger.hold holds
  | stop _ _ _ => exact ledger.stop
  | create prio _ empty unused => exact ledger.create prio empty unused
  | block _ empty unused found running => exact ledger.block empty unused found running
  | link holds _ found state_eq needs live => exact ledger.link holds found state_eq needs live
  | meet _ found state_eq _ _ => exact ledger.meet found state_eq state_eq rfl
  | unfollow _ _ _ => exact ledger.unfollow
  | leave holds found state_eq _ => exact ledger.leave holds found state_eq
  | throw _ holds found state_eq _ bounded => exact ledger.throw holds found state_eq bounded

theorem Moves.ledger (moves : Moves strict S S') (ledger : Ledger S) : Ledger S' := by
  induction moves with
  | refl => exact ledger
  | tail _ move ih => exact move.ledger ih

/-! ## Whole calls -/

section Wants

variable {exe : Executor} {named : List (JobId × JobId)} {thrown : List JobId}

theorem setFollowed_kindAt (followed : Bool) (jid other : JobId) :
    (exe.setFollowed followed jid).kindAt other = exe.kindAt other := by
  by_cases same : jid = other
  · subst same
    cases found : exe.jobs[jid]? with
    | none => simp [setFollowed, kindAt, stateAt, found]
    | some job => simp [setFollowed, kindAt, stateAt, found]
  · simp [setFollowed, kindAt, stateAt, same]

theorem want_kindAt {other : JobId} (differs : jid ≠ other) :
    (exe.want jid).kindAt other = exe.kindAt other := by
  rw [want, setFollowed_kindAt]
  cases found : exe.jobs[jid]? with
  | none => simp [toState, found]
  | some job => simp [toState_eq found, kindAt, stateAt, List.getElem?_set_ne differs]

/-- Wanting a job does not look at the wantable list. -/
theorem want_wantable (jid : JobId) (wantable wantable' : List JobId) :
    { { exe with wantable := wantable }.want jid with wantable := wantable' } =
      { exe.want jid with wantable := wantable' } := by
  cases found : exe.jobs[jid]? with
  | none => simp [want, setFollowed, toState, found]
  | some job => simp [want, setFollowed, toState, found]

/-- The first of the wantable list are Wanted one by one. -/
theorem wants_moves (picked rest : List JobId) {exe : Executor} (distinct : picked.Nodup)
    (wantable : ∀ jid ∈ picked, exe.kindAt jid = some .wantable)
    (room : exe.active + picked.length ≤ exe.cfg.threads) :
    Moves False (between { exe with wantable := picked ++ rest } named thrown)
      (between { picked.foldl want exe with wantable := rest } named thrown) := by
  induction picked generalizing exe with
  | nil => exact .refl
  | cons jid picked ih =>
    obtain ⟨job, found, kind_eq⟩ := exists_of_kindAt (wantable jid (by simp))
    rw [List.nodup_cons] at distinct
    simp only [List.length_cons] at room
    have turned := @want_turn job { exe with wantable := jid :: (picked ++ rest) } jid found
      (picked ++ rest) kind_eq (by simp only; omega) rfl
    rw [want_wantable] at turned
    refine Relation.ReflTransGen.head (.turn turned) (ih distinct.2 ?_ ?_)
    · intro other inside
      have differs : jid ≠ other := by
        rintro rfl
        exact distinct.1 inside
      rw [want_kindAt differs]
      exact wantable other (by simp [inside])
    · have active_eq : (exe.want jid).active = exe.active + 1 := by
        simp [want, setFollowed, toState_eq found, kind_eq]
      have cfg_eq : (exe.want jid).cfg = exe.cfg := by
        simp [want, setFollowed, toState_eq found]
      rw [active_eq, cfg_eq]
      omega

/-- A job is in the list without what is out of date as often as it is wantable. -/
theorem count_stillWantable (jid : JobId) :
    exe.stillWantable.count jid = if exe.kindAt jid = some .wantable then exe.wantable.count jid else 0 := by
  unfold stillWantable
  split
  · rename_i wantable
    rw [List.count_filter (by simpa using wantable)]
  · rename_i other
    apply List.count_eq_zero.mpr
    intro inside
    exact other (by simpa using (List.mem_filter.mp inside).2)

/-- Writing flags changes nothing else. -/
theorem foldl_setFollowed (followed : Bool) (ids : List JobId) (exe : Executor) :
    (ids.foldl (setFollowed · followed) exe).wantable = exe.wantable ∧
      (ids.foldl (setFollowed · followed) exe).active = exe.active ∧
      (ids.foldl (setFollowed · followed) exe).cfg = exe.cfg ∧
      ∀ jid, (ids.foldl (setFollowed · followed) exe).kindAt jid = exe.kindAt jid := by
  induction ids generalizing exe with
  | nil => exact ⟨rfl, rfl, rfl, fun _ => rfl⟩
  | cons first ids ih =>
    obtain ⟨wantable_eq, active_eq, cfg_eq, kinds⟩ := ih (exe.setFollowed followed first)
    exact ⟨wantable_eq, active_eq, cfg_eq, fun jid => (kinds jid).trans (setFollowed_kindAt _ _ _)⟩

/-- The wantable list is put in order and loses what is out of date. -/
theorem arrange_idle {arranged : List JobId} (sorted : arranged.Perm exe.stillWantable) :
    Idle False exe { exe with wantable := arranged } where
  cfg_eq := rfl
  remaining_eq := rfl
  stopping_eq := rfl
  abandoned_eq := rfl
  jobs_eq := rfl
  active_eq := rfl
  wantable_le := by
    intro jid
    simp only [sorted.count_eq, count_stillWantable]
    split
    · exact le_rfl
    · exact Nat.zero_le _
  wantable_eq := by
    intro jid wantable
    simp only [sorted.count_eq, count_stillWantable, wantable, if_true]
  ready_le := fun _ => le_rfl
  ready_eq := fun _ _ => rfl
  hushed := False.elim

theorem nodup_stillWantable (ledger : Ledger (between exe named thrown)) : exe.stillWantable.Nodup := by
  rw [List.nodup_iff_count_le_one]
  intro jid
  rw [count_stillWantable]
  split
  · rename_i wantable
    obtain ⟨job, found, kind_eq⟩ := exists_of_kindAt wantable
    have once := (ledger.fits jid job found (by simp [kind_eq])).wantable_eq
    rw [kind_eq, if_pos rfl] at once
    exact le_of_eq once
  · exact Nat.zero_le _

theorem takeWants_moves {arranged : List JobId} (ledger : Ledger (between exe named thrown))
    (sorted : exe.stream = true → exe.Arranges arranged) :
    Moves False (between exe named thrown) (between (exe.takeWants arranged).2 named thrown) := by
  cases up : exe.stream with
  | false =>
    rw [takeWants, if_neg (by simp [up])]
    exact .refl
  | true =>
    obtain ⟨perm, -, -⟩ := sorted up
    rw [takeWants, if_pos up]
    simp only
    obtain ⟨wantable_eq, active_eq, cfg_eq, kinds⟩ :=
      foldl_setFollowed true exe.rewant { exe with rewant := [] }
    have followed : Moves False (between exe named thrown)
        (between (exe.rewant.foldl (setFollowed · true) { exe with rewant := [] }) named thrown) := by
      have cleared : Idle False exe { exe with rewant := [] } := aside_idle ⟨rfl, rfl, rfl, rfl⟩ rfl rfl rfl rfl
      refine Relation.ReflTransGen.head (.idle cleared) ?_
      exact foldl_moves id (fun exe jid => .single (.idle (setFollowed_idle true jid))) exe.rewant
        { exe with rewant := [] }
    generalize exe.rewant.foldl (setFollowed · true) { exe with rewant := [] } = exe' at *
    have kinds' : ∀ jid, exe'.kindAt jid = exe.kindAt jid := kinds
    have still_eq : exe'.stillWantable = exe.stillWantable := by
      simp only [stillWantable, wantable_eq, kinds']
    have split_eq : arranged = arranged.take exe.room ++ arranged.drop exe.room :=
      (List.take_append_drop _ _).symm
    refine followed.trans (Relation.ReflTransGen.head (.idle (arrange_idle (still_eq ▸ perm))) ?_)
    have wanted := @wants_moves named thrown (arranged.take exe.room) (arranged.drop exe.room) exe' ?_ ?_ ?_
    · rw [← split_eq] at wanted
      exact wanted
    · exact (perm.nodup_iff.mpr (nodup_stillWantable ledger)).sublist (List.take_sublist _ _)
    · intro jid inside
      have still : jid ∈ exe.stillWantable := perm.subset (List.take_subset _ _ inside)
      rw [kinds']
      simpa using (List.mem_filter.mp still).2
    · have within := ledger.active_le
      have few : (arranged.take exe.room).length ≤ exe.cfg.threads - exe.active :=
        (List.length_take_le _ _).trans (Nat.min_le_right _ _)
      simp only [between] at within
      rw [active_eq, cfg_eq]
      simp only
      omega

end Wants

/-- Whether the inputs an `add` names exist. -/
def Call.Proper (exe : Executor) : Call → Prop
  | .add _ inputs => ∀ input ∈ inputs, input < exe.jobs.length
  | _ => True

/-- The calls that open, close or write to the stream. -/
def Call.onStream : Call → Prop
  | .connected | .disconnected | .takeWants _ | .unsent _ | .takeCancels => True
  | _ => False

theorem Move.mono {strict' : Prop} (weaker : strict' → strict) (move : Move strict S S') :
    Move strict' S S' := by
  cases move with
  | turn turned => exact .turn { turned with hushed := fun strictly => turned.hushed (weaker strictly) }
  | idle idle => exact .idle { idle with hushed := fun strictly => idle.hushed (weaker strictly) }
  | begin found free idle own => exact .begin found free idle own
  | drop waits late => exact .drop waits late
  | settle waits told empty found live => exact .settle waits told empty found live
  | pass owes unblocked => exact .pass owes unblocked
  | tell owes empty found state_eq => exact .tell owes empty found state_eq
  | unblock holds found state_eq sound going kept => exact .unblock holds found state_eq sound going kept
  | hold holds found state_eq why => exact .hold holds found state_eq why
  | stop told empty strictly => exact .stop told empty strictly
  | create prio told empty unused => exact .create prio told empty unused
  | block told empty unused found running => exact .block told empty unused found running
  | link holds told found state_eq needs live => exact .link holds told found state_eq needs live
  | meet holds found state_eq needs ended => exact .meet holds found state_eq needs ended
  | unfollow holds found blocked => exact .unfollow holds found blocked
  | leave holds found state_eq unfollowed => exact .leave holds found state_eq unfollowed
  | throw more holds found state_eq unfollowed bounded =>
    exact .throw more holds found state_eq unfollowed bounded

theorem Moves.mono {strict' : Prop} (weaker : strict' → strict) (moves : Moves strict S S') :
    Moves strict' S S' :=
  Relation.ReflTransGen.mono (fun _ _ move => Move.mono weaker move) _ _ moves

/-- Every call is a sequence of moves. -/
theorem Call.moves {exe : Executor} {thrown : List JobId}
    (ledger : Ledger (between exe named thrown)) (call : Call) (allowed : call.allowed exe) :
    ∃ thrown', Moves (¬ call.onStream) (between (call.start exe) named thrown)
        (between (call.perform exe) (named ++ call.names exe) thrown') ∧
      (call.Proper exe → thrown' = thrown) := by
  have plain : ∀ exe', Moves (¬ call.onStream) (between (call.start exe) named thrown) (between exe' named thrown) →
      call.names exe = [] → call.perform exe = exe' →
      ∃ thrown', Moves (¬ call.onStream) (between (call.start exe) named thrown)
          (between (call.perform exe) (named ++ call.names exe) thrown') ∧
        (call.Proper exe → thrown' = thrown) := by
    intro exe' moves names_eq performed
    rw [names_eq, performed, List.append_nil]
    exact ⟨thrown, moves, fun _ => rfl⟩
  have open_stream : call.onStream → ¬ call.onStream → False := fun on off => off on
  cases call with
  | add prio inputs => exact add_moves prio inputs allowed
  | blockOn jid input => exact ⟨thrown, blockOn_moves jid input, fun _ => rfl⟩
  | connected => exact plain _ (connected_moves.mono (open_stream trivial)) rfl rfl
  | disconnected => exact plain _ (disconnected_moves.mono (open_stream trivial)) rfl rfl
  | takeWants arranged => exact plain _ ((takeWants_moves ledger allowed).mono (open_stream trivial)) rfl rfl
  | unsent ids => exact plain _ ((unsent_moves ids).mono (open_stream trivial)) rfl rfl
  | takeCancels => exact plain _ (takeCancels_moves.mono (open_stream trivial)) rfl rfl
  | onAssigned jid placement => exact plain _ (onAssigned_moves jid placement) rfl rfl
  | onCached jid => exact plain _ (onCached_moves jid) rfl rfl
  | onUnplaceable jid reason now => exact plain _ (onUnplaceable_moves jid reason now) rfl rfl
  | onPlaceable jid => exact plain _ (onPlaceable_moves jid) rfl rfl
  | reap now grace => exact plain _ (reap_moves now grace) rfl rfl
  | next => exact plain _ next_moves rfl rfl
  | finished jid succeeded => exact plain _ (finished_moves jid succeeded) rfl rfl
  | bounced jid => exact plain _ (bounced_moves jid) rfl rfl
  | abandon => exact plain _ abandon_moves rfl rfl

end NixGrpcStore.Exec
