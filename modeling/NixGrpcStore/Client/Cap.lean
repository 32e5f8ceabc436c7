import NixGrpcStore.Client.Stream

/-!
# How much the scheduler holds for a client

The client Wants at most as many jobs as it has threads.  A job that bounced stays followed while it
is wantable, so when jobs of its priority take the freed thread, the scheduler holds one too many.
-/

namespace NixGrpcStore.Exec

open Executor Tally Notices

variable {cfg : Config} {exe : Executor} {log : Said} {named : List (JobId × JobId)} {thrown : List JobId}

/-- The jobs for which the scheduler holds our follow. -/
def Executor.followedJobs (exe : Executor) : ℕ := exe.jobs.countP fun job => job.followed

/-- Every followed job that is wantable finds a free thread, whichever jobs of its priority go first. -/
def Roomy (exe : Executor) : Prop :=
  ∀ job ∈ exe.jobs, job.followed = true → job.state.kind = .wantable →
    (exe.jobs.countP fun other => other.state.kind = .wantable ∧ job.prio ≤ other.prio) ≤
      exe.cfg.threads - exe.active

instance : Decidable (Roomy exe) := by
  unfold Roomy
  infer_instance

variable {arranged : List JobId} {jid : JobId}

/-- The most urgent jobs are picked, so one is left out only if the threads go to jobs of its
priority. -/
theorem picked_of_room (sorted : exe.Arranges arranged)
    (still : jid ∈ exe.stillWantable)
    (room : (exe.stillWantable.countP fun other => exe.prioOf jid ≤ exe.prioOf other) ≤
      exe.cfg.threads - exe.active) : jid ∈ arranged.take exe.room := by
  obtain ⟨perm, -, urgent⟩ := sorted
  by_contra outside
  have inside : jid ∈ arranged.take exe.room ++ arranged.drop exe.room := by
    rw [List.take_append_drop]
    exact perm.symm.subset still
  have left_out := (List.mem_append.mp inside).resolve_left outside
  have dropped : 0 < (arranged.drop exe.room).length := List.length_pos_of_mem left_out
  rw [List.length_drop] at dropped
  have room_eq : exe.room = exe.cfg.threads - exe.active := by
    rw [perm.length_eq, Executor.room] at dropped
    rw [Executor.room]
    omega
  have taken : (arranged.take exe.room).countP (fun other => exe.prioOf jid ≤ exe.prioOf other) = exe.room := by
    rw [List.countP_eq_length.mpr, List.length_take]
    · omega
    · intro other picked
      simpa using urgent other picked jid left_out
  have own : 0 < (arranged.drop exe.room).countP fun other => exe.prioOf jid ≤ exe.prioOf other :=
    List.countP_pos_iff.mpr ⟨jid, left_out, by simp⟩
  have whole := perm.countP_eq fun other => decide (exe.prioOf jid ≤ exe.prioOf other)
  rw [← List.take_append_drop exe.room arranged, List.countP_append] at whole
  omega

theorem prioOf_found {job : Job} (found : exe.jobs[jid]? = some job) :
    exe.prioOf jid = job.prio := by
  simp [prioOf, found]

/-- With room, a followed job that is wantable is Wanted again. -/
theorem Roomy.picked (roomy : Roomy exe) (ledger : Ledger (between exe named thrown))
    (sorted : exe.Arranges arranged) {job : Job} (found : exe.jobs[jid]? = some job)
    (followed : job.followed = true) (wantable : job.state.kind = .wantable) :
    jid ∈ arranged.take exe.room := by
  have once := (ledger.fits jid job found (by simp [wantable])).wantable_eq
  rw [wantable, if_pos rfl] at once
  have still : jid ∈ exe.stillWantable := by
    refine List.mem_filter.mpr ⟨List.count_pos_iff.mp (once ▸ Nat.one_pos), ?_⟩
    simp [kindAt_of_found found, wantable]
  refine picked_of_room sorted still (le_trans ?_ (roomy job (List.mem_of_getElem? found) followed wantable))
  rw [List.countP_eq_length_filter]
  refine length_le_countP ((nodup_stillWantable ledger).filter _) fun other inside => ?_
  obtain ⟨other_still, urgent⟩ := List.mem_filter.mp inside
  obtain ⟨x, found_x, kind_x⟩ := exists_of_kindAt (of_decide_eq_true (List.mem_filter.mp other_still).2)
  rw [prioOf_found found, prioOf_found found_x] at urgent
  exact ⟨x, found_x, by simpa [kind_x] using urgent⟩

/-- A flush with the stream up leaves only active jobs followed if every followed job that is wantable
is picked. -/
theorem flush_followed (up : exe.stream = true)
    (placed : ∀ jid ∈ exe.rewant, Placed exe jid)
    (heard' : Heard log (between (exe.flush arranged).2 named thrown))
    (picked : ∀ (jid : JobId) (job : Job), exe.jobs[jid]? = some job → job.followed = true →
      job.state.kind = .wantable → jid ∈ arranged.take exe.room) {job' : Job}
    (found' : (exe.flush arranged).2.jobs[jid]? = some job') (followed' : job'.followed = true) :
    job'.state.kind.isActive = true := by
  have follows := heard'.follows jid job' found'
  have jobs_eq := (flush_up up arranged).2.2.2.2.2 jid
  rw [found'] at jobs_eq
  obtain ⟨job, found, job_eq⟩ := Option.map_eq_some_iff.mp jobs_eq.symm
  by_cases first : jid ∈ arranged.take exe.room
  · rw [if_pos first] at job_eq
    simp [← job_eq]
  · rw [if_neg first] at job_eq
    by_cases again : jid ∈ exe.rewant
    · rw [if_pos again] at job_eq
      have active : job.state.kind = .assigned ∨ job.state.kind = .running := by
        simpa [Placed, kindAt_of_found found] using placed jid again
      rw [← job_eq]
      rcases active with assigned | running
      · simp [assigned]
      · simp [running]
    · rw [if_neg again] at job_eq
      subst job_eq
      cases kind_eq : job.state.kind with
      | blocked => simpa [Stage.Held, between] using follows.blocked kind_eq followed'
      | wantable => exact absurd (picked jid job found followed' kind_eq) first
      | done => exact absurd (follows.ended kind_eq) (by simp [followed'])
      | _ => rfl

/-- If only active jobs are followed, they are at most as many as there are threads. -/
theorem followed_le_threads (ledger : Ledger (between exe named thrown))
    (busy : ∀ (jid : JobId) (job : Job), exe.jobs[jid]? = some job → job.followed = true →
      job.state.kind.isActive = true) : exe.followedJobs ≤ exe.cfg.threads := by
  have within : exe.active ≤ exe.cfg.threads := ledger.active_le
  have counted : exe.active = exe.jobs.countP fun job => job.state.kind.isActive :=
    ledger.active_eq.trans (tally_countP (fun job => by simp [countsActive]) _)
  refine le_trans (List.countP_mono_left fun job inside followed => ?_) (counted ▸ within)
  obtain ⟨jid, found⟩ := List.mem_iff_getElem?.mp inside
  exact busy jid job found followed

/-- The scheduler holds at most as many jobs for a client as it has threads, after every flush that
finds room for the jobs that are still followed. -/
theorem follows_capped (driven : Driven cfg exe log) (roomy : exe.stream = true → Roomy exe) (act : Act)
    (flushes : act.Flushes) (allowed : act.allowed exe) :
    (act.perform exe).2.followedJobs ≤ cfg.threads := by
  have talks := driven.talks
  obtain ⟨cfg_eq', -, -, named', thrown', ledger', heard'⟩ := talks.act allowed
  obtain ⟨-, settled, -, named, thrown, ledger, heard⟩ := talks
  rw [← cfg_eq']
  refine followed_le_threads ledger' fun jid job' found' followed' => ?_
  cases act with
  | flush arranged =>
    cases up : exe.stream with
    | false =>
      have down : (exe.flush arranged).2.stream = false := by rw [flush_down up]; exact up
      have unfollowed := (heard'.follows jid job' found').down down
      simp [followed'] at unfollowed
    | true =>
      exact flush_followed up (by simp [settled]) heard'
        (fun jid job found => (roomy up).picked ledger (allowed up) found) found' followed'
  | attach arranged =>
    obtain ⟨down, -⟩ := allowed
    have reopens := (foldl_reconnect (List.range exe.jobs.length) { exe with stream := true }).1
    have none_followed : Unfollowed exe.connected := reopens.unfollowed (heard.unfollowed_of_down down)
    refine flush_followed reopens.stream_eq (heard.connected down settled).2 heard' ?_ found' followed'
    intro jid job found followed
    simp [none_followed.found found] at followed
  | call made => exact flushes.elim

/-- Two threads; `h` and `m` need `a`.  Once `a` is built and `h` is Wanted, `l` bounces. -/
def bounce : List Act :=
  [.call (.add 5 []), .call (.add 4 []), .call (.add 7 [0]), .call (.add 6 [0]), .attach [0, 1],
    .call (.onAssigned 0 { addr := "w" }), .call (.onAssigned 1 { addr := "w" }), .call .next, .call .next,
    .call (.finished 0 true), .flush [2, 3], .call (.bounced 1)]

theorem follows_capped_wanted : ∃ exe log, Driven { threads := 2 } exe log ∧ Roomy exe ∧
    (Act.flush [2, 3]).allowed exe ∧ ((Act.flush [2, 3]).perform exe).2.followedJobs ≤ 2 := by
  have start : Driven { threads := 2 } { cfg := { threads := 2 } } [] := .start rfl
  have driven := start.drive (bounce.take 10) (by decide +kernel)
  have roomy : Roomy (drive ({ cfg := { threads := 2 } }, []) (bounce.take 10)).1 := by decide +kernel
  have allowed : (Act.flush [2, 3]).allowed (drive ({ cfg := { threads := 2 } }, []) (bounce.take 10)).1 := by
    decide +kernel
  exact ⟨_, _, driven, roomy, allowed, follows_capped driven (fun _ => roomy) (.flush [2, 3]) trivial allowed⟩

/-- The bounced job stays followed while `m` takes its thread. -/
theorem bounce_overfollows : ∃ exe log, Driven { threads := 2 } exe log ∧ (Act.flush [3, 1]).allowed exe ∧
    ((Act.flush [3, 1]).perform exe).2.followedJobs = 3 := by
  have start : Driven { threads := 2 } { cfg := { threads := 2 } } [] := .start rfl
  exact ⟨_, _, start.drive bounce (by decide +kernel), by decide +kernel, by decide +kernel⟩

/-! ## A job waits for a thread -/

theorem foldl_want_active {ids : List JobId} (distinct : ids.Nodup)
    (wantable : ∀ jid ∈ ids, exe.kindAt jid = some .wantable) :
    (ids.foldl want exe).active = exe.active + ids.length := by
  induction ids generalizing exe with
  | nil => rfl
  | cons first ids ih =>
    obtain ⟨fresh, distinct⟩ := List.nodup_cons.mp distinct
    obtain ⟨job, found, kind_eq⟩ := exists_of_kindAt (wantable first List.mem_cons_self)
    have counted : (exe.want first).active = exe.active + 1 := by
      simp [want, setFollowed, toState_eq found, kind_eq]
    rw [List.foldl_cons, ih distinct, counted, List.length_cons]
    · omega
    · intro jid inside
      obtain ⟨x, found_x, kind_x⟩ := exists_of_kindAt (wantable jid (List.mem_cons_of_mem _ inside))
      have other : first ≠ jid := (ne_of_mem_of_not_mem inside fresh).symm
      simp [kindAt, stateAt, want_found, found_x, other, kind_x]

theorem flush_active (ledger : Ledger (between exe named thrown)) (up : exe.stream = true)
    (sorted : exe.Arranges arranged) :
    (exe.flush arranged).2.active = exe.active + (arranged.take exe.room).length := by
  obtain ⟨-, active_eq, -, kinds⟩ :=
    foldl_setFollowed true exe.rewant { exe with cancels := [], rewant := [], stream := true }
  simp only [flush, takeCancels, takeWants, up, if_true]
  have distinct : arranged.Nodup := sorted.1.nodup_iff.mpr (nodup_stillWantable ledger)
  refine (foldl_want_active (distinct.sublist (List.take_sublist _ _)) fun jid inside => ?_).trans ?_
  · rw [kinds]
    exact of_decide_eq_true (List.mem_filter.mp (sorted.1.subset (List.mem_of_mem_take inside))).2
  · rw [active_eq]
    rfl

/-- After every flush on an open stream a job is left wantable only while all threads are taken, and every job the
flush asks for is at least as urgent. -/
theorem waits_for_threads (driven : Driven cfg exe log) (up : exe.stream = true) {arranged : List JobId}
    (sorted : exe.Arranges arranged) {jid : JobId} {job : Job}
    (found' : (exe.flush arranged).2.jobs[jid]? = some job) (waits : job.state.kind = .wantable) :
    (exe.flush arranged).2.active = cfg.threads ∧ ∀ (other : JobId) (x : Job),
      .want other ∈ (exe.flush arranged).1 → exe.jobs[other]? = some x → job.prio ≤ x.prio := by
  obtain ⟨rfl, settled, -, named, thrown, ledger, -⟩ := driven.talks
  obtain ⟨said, -, -, -, -, jobs_eq⟩ := flush_up up arranged
  rw [jobs_eq] at found'
  obtain ⟨old, found, rfl⟩ := Option.map_eq_some_iff.mp found'
  have outside : jid ∉ arranged.take exe.room := fun picked => by simp [picked] at waits
  simp only [outside, settled, if_false, List.not_mem_nil] at waits ⊢
  have once := (ledger.fits jid old found (by simp [waits])).wantable_eq
  rw [waits, if_pos rfl] at once
  have still : jid ∈ exe.stillWantable :=
    List.mem_filter.mpr ⟨List.count_pos_iff.mp (once ▸ Nat.one_pos), by simp [kindAt_of_found found, waits]⟩
  have inside : jid ∈ arranged.take exe.room ++ arranged.drop exe.room := by
    rw [List.take_append_drop]
    exact sorted.1.symm.subset still
  have left_out := (List.mem_append.mp inside).resolve_left outside
  constructor
  · have dropped : 0 < (arranged.drop exe.room).length := List.length_pos_of_mem left_out
    have within : exe.active ≤ exe.cfg.threads := ledger.active_le
    rw [flush_active ledger up sorted, List.length_take]
    rw [List.length_drop, sorted.1.length_eq, room] at dropped
    rw [sorted.1.length_eq, room]
    omega
  · intro other x told found_x
    rw [said, settled, List.nil_append, List.mem_append] at told
    obtain ⟨_, picked, same⟩ := List.mem_map.mp (told.resolve_left (by simp))
    cases same
    have urgent := sorted.2.2 other picked jid left_out
    rwa [prioOf_found found, prioOf_found found_x] at urgent

theorem waits_for_threads_bounced : ∃ exe log, Driven { threads := 2 } exe log ∧
    (exe.flush [3, 1]).2.kindAt 1 = some .wantable ∧ (exe.flush [3, 1]).2.active = 2 := by
  have start : Driven { threads := 2 } { cfg := { threads := 2 } } [] := .start rfl
  have driven := start.drive bounce (by decide +kernel)
  have waits : ((drive ({ cfg := { threads := 2 } }, []) bounce).1.flush [3, 1]).2.kindAt 1 = some .wantable := by
    decide +kernel
  obtain ⟨job, found, kind_eq⟩ := exists_of_kindAt waits
  exact ⟨_, _, driven, waits, (waits_for_threads driven (by decide +kernel) (by decide +kernel) found kind_eq).1⟩

end NixGrpcStore.Exec
