import NixGrpcStore.Client.Runs
import NixGrpcStore.Lib.Notices

/-!
# What the scheduler is told

`Run` of `src/client/build.cc` drives the executor: it takes the cancels and then the wants and
writes them to the stream, opens a stream only when there is none, and takes wants back only after
the stream broke.  The scheduler then knows which jobs the client follows.
-/

namespace NixGrpcStore.Exec

open List (getElem?_set_ne mem_append mem_cons mem_map mem_singleton)
open Executor Tally Notices

/-- What the client says about its jobs. -/
abbrev Said := List (Notice JobId)

namespace Executor

/-- Cancels and wants are taken and written, in this order. -/
def flush (exe : Executor) (arranged : List JobId) : Said × Executor :=
  let (cancels, exe) := exe.takeCancels
  let (wants, exe) := exe.takeWants arranged
  (cancels.map .cancel ++ wants.map .want, exe)

/-- A stream is opened, and everything that is not done is Wanted again. -/
def attach (exe : Executor) (arranged : List JobId) : Said × Executor :=
  let (said, exe) := exe.connected.flush arranged
  (.opened :: said, exe)

end Executor

/-- What `Run` does with the executor. -/
inductive Act
  | flush (arranged : List JobId)
  | attach (arranged : List JobId)
  | call (made : Call)

namespace Act

def perform (exe : Executor) : Act → Said × Executor
  | .flush arranged => exe.flush arranged
  | .attach arranged => exe.attach arranged
  | .call made => ([], made.perform exe)

/-- `Run` opens a stream when the last one ended, says nothing but in a flush, and takes wants back
only after the stream broke. -/
def allowed (exe : Executor) : Act → Prop
  | .flush arranged => exe.stream = true → exe.Arranges arranged
  | .attach arranged => exe.stream = false ∧ exe.connected.Arranges arranged
  | .call made =>
    made.allowed exe ∧
      match made with
      | .connected | .takeWants _ | .takeCancels => False
      | .unsent _ => exe.stream = false
      | _ => True

/-- The act ends with a flush. -/
def Flushes : Act → Prop
  | .flush _ | .attach _ => True
  | .call _ => False

end Act

/-- The states `Run` brings the executor to, with all that was said. -/
def Driven (cfg : Config) : Executor → Said → Prop :=
  Run.Reached (fun exe => exe = { cfg := cfg }) fun exe said exe' =>
    ∃ act : Act, act.allowed exe ∧ act.perform exe = (said, exe')

/-- The last notice about a job on the current stream is a Want. -/
def Wanting (log : Said) (jid : JobId) : Prop := lastFor jid (current log) = some (.want jid)

/-- What the flag of a job means. -/
structure Follows (log : Said) (S : Stage) (jid : JobId) (job : Job) : Prop where
  wanting : job.followed = true → Wanting log jid
  cancelled : S.exe.stream = true → job.followed = false → Wanting log jid → jid ∈ S.exe.cancels
  active : S.exe.stream = true → job.state.kind.isActive = true →
    job.followed = true ∨ jid ∈ S.exe.rewant
  down : S.exe.stream = false → job.followed = false
  ended : job.state.kind = .done → job.followed = false
  blocked : job.state.kind = .blocked → job.followed = true → S.Held jid

/-- The invariant of the flags and the cancels that wait. -/
structure Heard (log : Said) (S : Stage) : Prop where
  distinct : S.exe.cancels.Nodup
  wanted : ∀ jid ∈ S.exe.cancels, lastFor jid log = some (.want jid)
  unfollowed : ∀ jid ∈ S.exe.cancels, ∀ job, S.exe.jobs[jid]? = some job → job.followed = false
  known : ∀ jid, S.exe.jobs.length ≤ jid → lastFor jid log = none
  follows : ∀ jid job, S.exe.jobs[jid]? = some job → Follows log S jid job

variable {log : Said} {S S' : Stage} {job job' : Job} {jid : JobId}

/-- Only one job is affected, and nothing is said about the others. -/
theorem Heard.write (heard : Heard log S) (found' : S'.exe.jobs[jid]? = some job')
    (others : ∀ other x, other ≠ jid → S'.exe.jobs[other]? = some x →
      ∃ y, S.exe.jobs[other]? = some y ∧ x.state.kind = y.state.kind ∧ x.followed = y.followed)
    (length_le : S.exe.jobs.length ≤ S'.exe.jobs.length)
    (stream_eq : S'.exe.stream = S.exe.stream) (rewant_eq : S'.exe.rewant = S.exe.rewant)
    (cancels : S'.exe.cancels = S.exe.cancels ∧ (jid ∈ S.exe.cancels → job'.followed = false) ∨
      S'.exe.cancels = S.exe.cancels ++ [jid] ∧ job'.followed = false ∧ jid ∉ S.exe.cancels ∧ Wanting log jid)
    (held : ∀ other, other ≠ jid → S.Held other → S'.Held other)
    (own : Follows log S' jid job') : Heard log S' := by
  have kept : ∀ other ∈ S.exe.cancels, other ∈ S'.exe.cancels := by
    intro other inside
    rcases cancels with ⟨cancels_eq, -⟩ | ⟨cancels_eq, -⟩
    · rwa [cancels_eq]
    · rw [cancels_eq]
      exact List.mem_append_left _ inside
  have cases_of : ∀ other ∈ S'.exe.cancels, other ∈ S.exe.cancels ∨ other = jid ∧ Wanting log jid := by
    intro other inside
    rcases cancels with ⟨cancels_eq, -⟩ | ⟨cancels_eq, -, -, wanting⟩
    · rw [cancels_eq] at inside
      exact .inl inside
    · rw [cancels_eq, mem_append, mem_singleton] at inside
      exact inside.imp_right fun same => ⟨same, wanting⟩
  refine ⟨?_, ?_, ?_, fun other outside => heard.known other (length_le.trans outside), ?_⟩
  · rcases cancels with ⟨cancels_eq, -⟩ | ⟨cancels_eq, -, outside, -⟩
    · rw [cancels_eq]
      exact heard.distinct
    · rw [cancels_eq]
      exact List.nodup_append.mpr ⟨heard.distinct, by simp, by
        intro a inside b same
        rw [mem_singleton] at same
        rintro rfl
        exact outside (same ▸ inside)⟩
  · intro other inside
    rcases cases_of other inside with before | ⟨rfl, wanting⟩
    · exact heard.wanted other before
    · exact lastFor_current wanting
  · intro other inside x found
    by_cases this : other = jid
    · subst this
      cases found'.symm.trans found
      rcases cancels with ⟨cancels_eq, cleared⟩ | ⟨-, cleared, -, -⟩
      · exact cleared (cancels_eq ▸ inside)
      · exact cleared
    · obtain ⟨y, found_y, -, followed_eq⟩ := others other x this found
      have before := (cases_of other inside).resolve_right fun same => this same.1
      rw [followed_eq]
      exact heard.unfollowed other before y found_y
  · intro other x found
    by_cases this : other = jid
    · subst this
      cases found'.symm.trans found
      exact own
    · obtain ⟨y, found_y, kind_eq, followed_eq⟩ := others other x this found
      obtain ⟨wanting, cancelled, active, down, ended, blocked⟩ := heard.follows other y found_y
      rw [← followed_eq] at wanting cancelled active down ended blocked
      rw [← kind_eq] at active ended blocked
      rw [← stream_eq] at cancelled active down
      rw [← rewant_eq] at active
      exact ⟨wanting, fun up unfollowed now => kept other (cancelled up unfollowed now), active, down, ended,
        fun waits followed => held other this (blocked waits followed)⟩

/-- No job is affected. -/
theorem Heard.keep (heard : Heard log S)
    (jobs : ∀ (jid : JobId) (x : Job), S'.exe.jobs[jid]? = some x →
      ∃ y, S.exe.jobs[jid]? = some y ∧ x.state.kind = y.state.kind ∧ x.followed = y.followed)
    (length_eq : S'.exe.jobs.length = S.exe.jobs.length)
    (stream_eq : S'.exe.stream = S.exe.stream) (rewant_eq : S'.exe.rewant = S.exe.rewant)
    (cancels_eq : S'.exe.cancels = S.exe.cancels)
    (held : ∀ jid job, S.exe.jobs[jid]? = some job → job.state.kind = .blocked → job.followed = true →
      S.Held jid → S'.Held jid) : Heard log S' where
  distinct := cancels_eq ▸ heard.distinct
  wanted := cancels_eq ▸ heard.wanted
  unfollowed := by
    intro jid inside x found
    obtain ⟨y, found_y, -, followed_eq⟩ := jobs jid x found
    rw [followed_eq]
    exact heard.unfollowed jid (cancels_eq ▸ inside) y found_y
  known := by
    rw [length_eq]
    exact heard.known
  follows := by
    intro jid x found
    obtain ⟨y, found_y, kind_eq, followed_eq⟩ := jobs jid x found
    obtain ⟨wanting, cancelled, active, down, ended, blocked⟩ := heard.follows jid y found_y
    have held_own := held jid y found_y
    rw [← followed_eq] at wanting cancelled active down ended blocked held_own
    rw [← kind_eq] at active ended blocked held_own
    rw [← stream_eq] at cancelled active down
    rw [← cancels_eq] at cancelled
    rw [← rewant_eq] at active
    exact ⟨wanting, cancelled, active, down, ended,
      fun waits followed => held_own waits followed (blocked waits followed)⟩

/-- What is said about the flags does not see the results that wait but for the jobs that are held. -/
theorem Heard.aside (heard : Heard log S) {work : Work} {owed : List Owed} {hand : Option JobId}
    {named : List (JobId × JobId)} {thrown : List JobId}
    (held : ∀ jid job, S.exe.jobs[jid]? = some job → job.state.kind = .blocked → job.followed = true →
      S.Held jid → Stage.Held ⟨S.exe, work, owed, hand, named, thrown⟩ jid) :
    Heard log ⟨S.exe, work, owed, hand, named, thrown⟩ :=
  heard.keep (fun _ x found => ⟨x, found, rfl, rfl⟩) rfl rfl rfl rfl held

theorem Hushed.followed_at {exe exe' : Executor} (hushed : Hushed exe exe')
    (found : exe.jobs[jid]? = some job) (found' : exe'.jobs[jid]? = some job') :
    job'.followed = job.followed := by
  have columns := congrArg (fun flags => flags[jid]?) hushed.followed_eq
  simpa [found, found'] using columns

variable {strict : Prop}

namespace Heard

theorem turn {exe : Executor} (heard : Heard log S)
    (turned : Turn strict S.exe exe jid job job') (strictly : strict) : Heard log { S with exe := exe } := by
  obtain ⟨hushed, staysActive⟩ := turned.hushed strictly
  have found' : exe.jobs[jid]? = some job' := by
    rw [turned.jobs_eq]
    exact List.getElem?_set_self (lt_length turned.found)
  have followed_eq := hushed.followed_at turned.found found'
  obtain ⟨wanting, cancelled, active, down, -, -⟩ := heard.follows jid job turned.found
  rw [← followed_eq] at wanting cancelled active down
  rw [← hushed.stream_eq] at cancelled active down
  rw [← hushed.cancels_eq] at cancelled
  rw [← hushed.rewant_eq] at active
  refine heard.write found' ?_ (by simp [turned.jobs_eq]) hushed.stream_eq hushed.rewant_eq
    (.inl ⟨hushed.cancels_eq, fun inside => ?_⟩) (fun _ _ => id)
    ⟨wanting, cancelled, fun up busy => active up (staysActive busy), down,
      fun ended => absurd ended turned.free'.2, fun blocked => absurd blocked turned.free'.1⟩
  · intro other x this found
    simp only [turned.jobs_eq, getElem?_set_ne (Ne.symm this)] at found
    exact ⟨x, found, rfl, rfl⟩
  · rw [followed_eq]
    exact heard.unfollowed jid inside job turned.found

theorem idle {exe : Executor} (heard : Heard log S) (idle : Idle strict S.exe exe)
    (strictly : strict) : Heard log { S with exe := exe } := by
  have hushed := idle.hushed strictly
  refine heard.keep ?_ ?_ hushed.stream_eq hushed.rewant_eq hushed.cancels_eq fun _ _ _ _ _ => id
  · intro jid x found
    obtain ⟨y, found_y, state_eq, -, -⟩ := idle.found found
    exact ⟨y, found_y, by rw [state_eq], hushed.followed_at found_y found⟩
  · simpa using congrArg List.length idle.jobs_eq

/-- A job that is overwritten with the same flag. -/
theorem set (heard : Heard log S) (found : S.exe.jobs[jid]? = some job)
    (jobs_eq : S'.exe.jobs = S.exe.jobs.set jid job') (followed_eq : job'.followed = job.followed)
    (stream_eq : S'.exe.stream = S.exe.stream) (rewant_eq : S'.exe.rewant = S.exe.rewant)
    (cancels_eq : S'.exe.cancels = S.exe.cancels)
    (held : ∀ other, other ≠ jid → S.Held other → S'.Held other)
    (inactive : job'.state.kind.isActive = false) (live : job'.state.kind ≠ .done)
    (own : job'.state.kind = .blocked → job'.followed = true → S'.Held jid) : Heard log S' := by
  have found' : S'.exe.jobs[jid]? = some job' := by
    rw [jobs_eq]
    exact List.getElem?_set_self (lt_length found)
  obtain ⟨wanting, cancelled, -, down, -, -⟩ := heard.follows jid job found
  rw [← followed_eq] at wanting cancelled down
  rw [← stream_eq] at cancelled down
  rw [← cancels_eq] at cancelled
  refine heard.write found' ?_ (by simp [jobs_eq]) stream_eq rewant_eq (.inl ⟨cancels_eq, fun inside => ?_⟩) held
    ⟨wanting, cancelled, fun _ busy => by simp [inactive] at busy, down, fun ended => absurd ended live, own⟩
  · intro other x this found_x
    rw [jobs_eq, getElem?_set_ne (Ne.symm this)] at found_x
    exact ⟨x, found_x, rfl, rfl⟩
  · rw [followed_eq]
    exact heard.unfollowed jid inside job found

/-- A job that is not followed any more is cancelled. -/
theorem clear (heard : Heard log S) (found : S.exe.jobs[jid]? = some job)
    (jobs_eq : S'.exe.jobs = S.exe.jobs.set jid job') (unfollowed : job'.followed = false)
    (stream_eq : S'.exe.stream = S.exe.stream) (rewant_eq : S'.exe.rewant = S.exe.rewant)
    (cancels_eq : S'.exe.cancels = if job.followed then S.exe.cancels ++ [jid] else S.exe.cancels)
    (held : ∀ other, other ≠ jid → S.Held other → S'.Held other)
    (inactive : job'.state.kind.isActive = false) : Heard log S' := by
  have found' : S'.exe.jobs[jid]? = some job' := by
    rw [jobs_eq]
    exact List.getElem?_set_self (lt_length found)
  obtain ⟨wanting, cancelled, -, -, -, -⟩ := heard.follows jid job found
  refine heard.write found' ?_ (by simp [jobs_eq]) stream_eq rewant_eq ?_ held
    ⟨by simp [unfollowed], fun up _ now => ?_, fun _ busy => by simp [inactive] at busy, fun _ => unfollowed,
      fun _ => unfollowed, by simp [unfollowed]⟩
  · intro other x this found_x
    rw [jobs_eq, getElem?_set_ne (Ne.symm this)] at found_x
    exact ⟨x, found_x, rfl, rfl⟩
  · cases followed : job.followed with
    | false => exact .inl ⟨by simpa [followed] using cancels_eq, fun _ => unfollowed⟩
    | true =>
      refine .inr ⟨by simpa [followed] using cancels_eq, unfollowed, fun inside => ?_, wanting followed⟩
      have before := heard.unfollowed jid inside job found
      simp [followed] at before
  · cases followed : job.followed with
    | false =>
      rw [cancels_eq, followed]
      exact cancelled (stream_eq ▸ up) followed now
    | true => simp [cancels_eq, followed]

theorem create (prio : ℚ) (heard : Heard log S) (empty : S.hand = none) :
    Heard log { S with exe := S.exe.push prio, hand := some S.exe.jobs.length } := by
  have fresh : (S.exe.push prio).jobs[S.exe.jobs.length]? = some { state := .blocked 0, prio := prio } := by
    simp [push]
  have unknown := heard.known S.exe.jobs.length le_rfl
  refine heard.write fresh ?_ (by simp [push]) rfl rfl (.inl ⟨rfl, fun _ => rfl⟩) ?_
    ⟨by simp, fun _ _ now => ?_, by simp, fun _ => rfl, fun _ => rfl, by simp⟩
  · intro other x this found
    exact ⟨x, (push_cases found).resolve_right fun new => this new.1, rfl, rfl⟩
  · rintro other this (holds | inside)
    · simp [empty] at holds
    · exact .inr inside
  · cases unknown.symm.trans (lastFor_current now)

end Heard

/-- A strict move keeps what the scheduler was told in step with the flags. -/
theorem Move.heard (move : Move strict S S') (strictly : strict) (heard : Heard log S) :
    Heard log S' := by
  cases move with
  | turn turned => exact heard.turn turned strictly
  | idle idle => exact heard.idle idle strictly
  | begin _ _ idle _ =>
    refine heard.aside fun jid job _ _ _ held => .inl (held.resolve_right ?_)
    simp [idle]
  | @drop jid result work waits late =>
    refine heard.aside fun other job found blocked _ held => held.imp_right ?_
    rintro ⟨its, inside⟩
    rw [waits, mem_cons] at inside
    rcases inside with same | inside
    · obtain ⟨rfl, -⟩ := Prod.mk.inj same
      simp [late job found] at blocked
    · exact ⟨its, inside⟩
  | @settle jid job result work waits _ _ found _ =>
    rw [finish_eq found]
    refine heard.clear found rfl rfl rfl rfl rfl ?_ (by simp)
    rintro other this (holds | ⟨its, inside⟩)
    · exact .inl holds
    · rw [waits, mem_cons] at inside
      rcases inside with same | inside
      · exact absurd (Prod.mk.inj same).1 this
      · exact .inr ⟨its, inside⟩
  | pass _ _ => exact heard.aside fun _ _ _ _ _ => id
  | @tell owed rest dnt waiting _ empty found state_eq =>
    have in_work : ∀ other, S.Held other → ∃ result, (other, result) ∈ S.work := by
      intro other held
      refine held.resolve_left ?_
      simp [empty]
    refine heard.set found rfl rfl rfl rfl rfl (fun other _ held => .inr (in_work other held))
      (by simp [Executor.tell]) (by simp [Executor.tell]) fun _ followed => .inr (in_work _ ?_)
    exact (heard.follows _ dnt found).blocked (by simp [state_eq]) followed
  | @unblock jid job holds found state_eq _ _ _ =>
    rw [toState_eq found]
    refine heard.set found rfl rfl rfl rfl rfl ?_ (by simp) (by simp) (by simp)
    rintro other this (other_holds | inside)
    · exact absurd (Option.some.inj (other_holds.symm.trans holds)) this
    · exact .inr inside
  | @hold jid job result holds _ _ _ =>
    refine heard.aside ?_
    rintro other x - - - (other_holds | ⟨its, inside⟩)
    · cases other_holds.symm.trans holds
      exact .inr ⟨result, by simp⟩
    · exact .inr ⟨its, by simp [inside]⟩
  | stop _ _ _ =>
    refine heard.keep (fun _ x found => ⟨x, found, rfl, rfl⟩) rfl rfl rfl rfl ?_
    rintro other x - - - (other_holds | ⟨its, inside⟩)
    · exact .inl other_holds
    · exact .inr ⟨its, by simp [stopAll, inside]⟩
  | create prio _ empty _ => exact heard.create prio empty
  | @block jid job _ empty _ found running =>
    rw [toState_eq found]
    refine heard.set found rfl rfl rfl rfl rfl ?_ (by simp) (by simp) fun _ _ => .inl rfl
    rintro other - (holds | inside)
    · simp [empty] at holds
    · exact .inr inside
  | @link jid input job needed waiting _ _ found state_eq _ _ =>
    refine heard.keep ?_ (by simp) rfl rfl rfl fun _ _ _ _ _ => id
    intro other x found_x
    obtain ⟨y, found_y, y_eq⟩ := modified_found found_x
    obtain ⟨z, found_z, z_eq⟩ := modified_found found_y
    refine ⟨z, found_z, ?_, ?_⟩
    · by_cases this : jid = other
      · subst this
        cases found.symm.trans found_z
        simp [y_eq, Job.blockedBy, state_eq]
      · rw [y_eq, if_neg this, z_eq]
        split <;> rfl
    · rw [y_eq, z_eq]
      split <;> split <;> rfl
  | meet holds found state_eq _ _ =>
    exact heard.set found rfl rfl rfl rfl rfl (fun _ _ => id) (by simp [state_eq]) (by simp [state_eq])
      fun _ _ => .inl holds
  | @unfollow jid job holds found blocked =>
    rw [unfollow_eq found]
    exact heard.clear found rfl rfl rfl rfl rfl (fun _ _ => id) (by simp [blocked])
  | @leave jid job waiting holds found _ unfollowed =>
    refine heard.aside ?_
    rintro other x found_x - followed (other_holds | inside)
    · cases other_holds.symm.trans holds
      cases found.symm.trans found_x
      simp [unfollowed] at followed
    · exact .inr inside
  | @throw jid job waiting more holds found state_eq unfollowed _ =>
    refine heard.set found rfl rfl rfl rfl rfl ?_ (by simp) (by simp) (by simp [unfollowed])
    rintro other this (other_holds | inside)
    · exact absurd (Option.some.inj (other_holds.symm.trans holds)) this
    · exact .inr inside

theorem Moves.heard (moves : Moves strict S S') (strictly : strict) (heard : Heard log S) :
    Heard log S' := by
  induction moves with
  | refl => exact heard
  | tail _ move ih => exact move.heard strictly ih

theorem Move.rewant_eq (move : Move strict S S') (strictly : strict) :
    S'.exe.rewant = S.exe.rewant := by
  cases move with
  | turn turned => exact (turned.hushed strictly).1.rewant_eq
  | idle idle => exact (idle.hushed strictly).rewant_eq
  | settle _ _ _ found _ => rw [finish_eq found]
  | unblock _ found _ _ _ _ => rw [toState_eq found]
  | block _ _ _ found _ => rw [toState_eq found]
  | unfollow _ found _ => rw [unfollow_eq found]
  | _ => rfl

theorem Moves.rewant_eq (moves : Moves strict S S') (strictly : strict) :
    S'.exe.rewant = S.exe.rewant := by
  induction moves with
  | refl => rfl
  | tail _ move ih => exact (move.rewant_eq strictly).trans ih

/-! ## Opening, closing and writing -/

variable {cfg : Config} {exe : Executor} {named : List (JobId × JobId)} {thrown : List JobId}

/-- No job is followed. -/
def Unfollowed (exe : Executor) : Prop := ∀ job ∈ exe.jobs, job.followed = false

theorem Unfollowed.found (none_followed : Unfollowed exe)
    (found : exe.jobs[jid]? = some job) : job.followed = false :=
  none_followed job (List.mem_of_getElem? found)

theorem Unfollowed.set (none_followed : Unfollowed exe) {exe' : Executor}
    (jobs_eq : exe'.jobs = exe.jobs.set jid job') (unfollowed : job'.followed = false) :
    Unfollowed exe' := by
  intro job inside
  rw [jobs_eq] at inside
  rcases List.mem_or_eq_of_mem_set inside with before | rfl
  · exact none_followed job before
  · exact unfollowed

/-- While the stream is down there is little to say. -/
theorem heard_down (down : exe.stream = false) (none_followed : Unfollowed exe)
    (distinct : exe.cancels.Nodup)
    (wanted : ∀ jid ∈ exe.cancels, lastFor jid log = some (.want jid))
    (known : ∀ jid, exe.jobs.length ≤ jid → lastFor jid log = none) :
    Heard log (between exe named thrown) where
  distinct := distinct
  wanted := wanted
  unfollowed := fun _ _ _ found => none_followed.found found
  known := known
  follows := by
    intro jid job found
    have unfollowed := none_followed.found found
    exact ⟨by simp [unfollowed], fun up => absurd (down.symm.trans up) (by simp),
      fun up => absurd (down.symm.trans up) (by simp), fun _ => unfollowed, fun _ => unfollowed,
      by simp [unfollowed]⟩

theorem Heard.unfollowed_of_down (heard : Heard log (between exe named thrown)) (down : exe.stream = false) :
    Unfollowed exe := by
  intro job inside
  obtain ⟨jid, found⟩ := List.mem_iff_getElem?.mp inside
  exact (heard.follows jid job found).down down

theorem Heard.disconnected (heard : Heard log (between exe named thrown)) :
    Heard log (between exe.disconnected named thrown) := by
  have length_eq : exe.disconnected.jobs.length = exe.jobs.length := List.length_map _
  refine heard_down rfl ?_ heard.distinct heard.wanted (length_eq ▸ heard.known)
  intro job inside
  obtain ⟨before, -, rfl⟩ := mem_map.mp inside
  rfl

/-- Taking wants back leaves the cancels and the stream alone. -/
theorem unsent_kept (ids : List JobId) (exe : Executor) (none_followed : Unfollowed exe) :
    Unfollowed (exe.unsent ids) ∧ (exe.unsent ids).cancels = exe.cancels ∧
      (exe.unsent ids).stream = exe.stream ∧ (exe.unsent ids).rewant = exe.rewant ∧
      (exe.unsent ids).jobs.length = exe.jobs.length := by
  induction ids generalizing exe with
  | nil => exact ⟨none_followed, rfl, rfl, rfl, rfl⟩
  | cons jid ids ih =>
    rw [unsent]
    cases found : exe.jobs[jid]? with
    | none => exact ⟨none_followed, rfl, rfl, rfl, rfl⟩
    | some job =>
      have cleared_eq : (exe.setFollowed false jid).jobs = exe.jobs.set jid { job with followed := false } :=
        modify_eq_set _ found
      have cleared : (exe.setFollowed false jid).jobs[jid]? = some { job with followed := false } := by
        simp [setFollowed, found]
      have none_left := none_followed.set cleared_eq rfl
      simp only
      split
      · have requeued_eq := toState_eq cleared .wantable
        obtain ⟨unfollowed, cancels_eq, stream_eq, rewant_eq, length_eq⟩ :=
          ih { (exe.setFollowed false jid).toState jid .wantable with
            wantable := (exe.setFollowed false jid).wantable ++ [jid] }
            (none_left.set (congrArg Executor.jobs requeued_eq) rfl)
        refine ⟨unfollowed, cancels_eq.trans ?_, stream_eq.trans ?_, rewant_eq.trans ?_, length_eq.trans ?_⟩
        · rw [requeued_eq, setFollowed]
        · rw [requeued_eq, setFollowed]
        · rw [requeued_eq, setFollowed]
        · rw [requeued_eq]
          simp [setFollowed]
      · obtain ⟨unfollowed, cancels_eq, stream_eq, rewant_eq, length_eq⟩ := ih _ none_left
        exact ⟨unfollowed, cancels_eq, stream_eq, rewant_eq, length_eq.trans (by simp [setFollowed])⟩

theorem Heard.unsent (heard : Heard log (between exe named thrown)) (down : exe.stream = false)
    (ids : List JobId) : Heard log (between (exe.unsent ids) named thrown) := by
  obtain ⟨none_followed, cancels_eq, stream_eq, -, length_eq⟩ :=
    unsent_kept ids exe (heard.unfollowed_of_down down)
  refine heard_down (stream_eq.trans down) none_followed ?_ ?_ ?_
  · rw [cancels_eq]
    exact heard.distinct
  · rw [cancels_eq]
    exact heard.wanted
  · rw [length_eq]
    exact heard.known

theorem toState_kindAt (found : exe.jobs[jid]? = some job) (next : JobState) (other : JobId) :
    (exe.toState jid next).kindAt other = if jid = other then some next.kind else exe.kindAt other := by
  split
  · rename_i same
    subst same
    exact kindAt_of_found (toState_found found next)
  · rename_i differs
    simp [toState_eq found, kindAt, stateAt, getElem?_set_ne differs]

/-- A worker has the job. -/
def Placed (exe : Executor) (jid : JobId) : Prop :=
  exe.kindAt jid = some .assigned ∨ exe.kindAt jid = some .running

/-- A job that takes a build thread is to be Wanted again. -/
def Again (exe : Executor) (jid : JobId) : Prop :=
  ∀ kind, exe.kindAt jid = some kind → kind.isActive = true → jid ∈ exe.rewant

/-- What the loop in `connected` does. -/
structure Reopens (exe exe' : Executor) : Prop where
  unfollowed : Unfollowed exe → Unfollowed exe'
  cancels_eq : exe'.cancels = exe.cancels
  stream_eq : exe'.stream = exe.stream
  length_eq : exe'.jobs.length = exe.jobs.length
  placed : ∀ jid, Placed exe jid → Placed exe' jid
  rewant : ∀ jid ∈ exe'.rewant, jid ∈ exe.rewant ∨ Placed exe' jid
  again : ∀ jid, Again exe jid → Again exe' jid

theorem Reopens.refl (exe : Executor) : Reopens exe exe :=
  ⟨id, rfl, rfl, rfl, fun _ => id, fun _ => .inl, fun _ => id⟩

theorem Reopens.trans {exe' exe'' : Executor} (first : Reopens exe exe') (second : Reopens exe' exe'') :
    Reopens exe exe'' where
  unfollowed := fun none_followed => second.unfollowed (first.unfollowed none_followed)
  cancels_eq := second.cancels_eq.trans first.cancels_eq
  stream_eq := second.stream_eq.trans first.stream_eq
  length_eq := second.length_eq.trans first.length_eq
  placed := fun jid placed => second.placed jid (first.placed jid placed)
  rewant := by
    intro jid inside
    rcases second.rewant jid inside with before | placed
    · exact (first.rewant jid before).imp_right (second.placed jid)
    · exact .inr placed
  again := fun jid again => second.again jid (first.again jid again)

theorem reopens_requeue (wanted : exe.kindAt jid = some .wanted) :
    Reopens exe { exe.toState jid .wantable with wantable := exe.wantable ++ [jid] } := by
  obtain ⟨job, found, kind_eq⟩ := exists_of_kindAt wanted
  have jobs_eq := congrArg Executor.jobs (toState_eq found .wantable)
  have kinds : ∀ other, Executor.kindAt { exe.toState jid .wantable with wantable := exe.wantable ++ [jid] } other =
      if jid = other then some .wantable else exe.kindAt other := toState_kindAt found .wantable
  have rewant_eq : (exe.toState jid .wantable).rewant = exe.rewant := by rw [toState_eq found]
  refine ⟨?_, by rw [toState_eq found], by rw [toState_eq found], by simp [jobs_eq], ?_, ?_, ?_⟩
  · exact fun none_followed => none_followed.set jobs_eq (none_followed.found found :)
  · intro other placed
    have differs : jid ≠ other := by
      rintro rfl
      rcases placed with assigned | running
      · simp [wanted] at assigned
      · simp [wanted] at running
    rw [Placed, kinds, if_neg differs]
    exact placed
  · intro other inside
    exact .inl (rewant_eq ▸ inside)
  · intro other again kind its active
    rw [kinds] at its
    split at its
    · cases its
      simp at active
    · rw [rewant_eq]
      exact again kind its active

theorem reopens_again (placed : Placed exe jid) :
    Reopens exe { exe with rewant := exe.rewant ++ [jid] } := by
  refine ⟨id, rfl, rfl, rfl, fun _ => id, ?_, fun _ again kind its active => ?_⟩
  · intro other inside
    rcases mem_append.mp inside with before | new
    · exact .inl before
    · obtain rfl := mem_singleton.mp new
      exact .inr placed
  · exact List.mem_append_left _ (again kind its active)

theorem reconnect_reopens (exe : Executor) (jid : JobId) :
    Reopens exe (exe.reconnect jid) ∧ Again (exe.reconnect jid) jid := by
  unfold reconnect
  split
  · rename_i wanted
    obtain ⟨job, found, -⟩ := exists_of_kindAt wanted
    refine ⟨reopens_requeue wanted, fun kind its active => ?_⟩
    have kind_eq : (exe.toState jid .wantable).kindAt jid = some .wantable := by
      rw [toState_kindAt found, if_pos rfl]
      rfl
    cases kind_eq.symm.trans its
    simp at active
  · rename_i assigned
    exact ⟨reopens_again (.inl assigned), fun _ _ _ => List.mem_append_right _ (by simp)⟩
  · rename_i running
    exact ⟨reopens_again (.inr running), fun _ _ _ => List.mem_append_right _ (by simp)⟩
  · rename_i no_wanted no_assigned no_running
    refine ⟨.refl exe, fun kind its active => ?_⟩
    cases kind with
    | wanted => exact absurd its no_wanted
    | assigned => exact absurd its no_assigned
    | running => exact absurd its no_running
    | _ => simp at active

theorem foldl_reconnect (ids : List JobId) (exe : Executor) :
    Reopens exe (ids.foldl reconnect exe) ∧ ∀ jid ∈ ids, Again (ids.foldl reconnect exe) jid := by
  induction ids generalizing exe with
  | nil => exact ⟨.refl exe, by simp⟩
  | cons first ids ih =>
    obtain ⟨step, own⟩ := reconnect_reopens exe first
    obtain ⟨rest, others⟩ := ih (exe.reconnect first)
    refine ⟨step.trans rest, fun jid inside => ?_⟩
    rcases mem_cons.mp inside with rfl | inside
    · exact rest.again jid own
    · exact others jid inside

/-- A stream is opened; jobs that have a worker are to be Wanted again. -/
theorem Heard.connected (heard : Heard log (between exe named thrown)) (down : exe.stream = false)
    (unused : exe.rewant = []) :
    Heard (log ++ [.opened]) (between exe.connected named thrown) ∧
      ∀ jid ∈ exe.connected.rewant, Placed exe.connected jid := by
  obtain ⟨reopens, again⟩ := foldl_reconnect (List.range exe.jobs.length) { exe with stream := true }
  have none_followed : Unfollowed exe.connected := reopens.unfollowed (heard.unfollowed_of_down down)
  have cancels_eq : exe.connected.cancels = exe.cancels := reopens.cancels_eq
  have length_eq : exe.connected.jobs.length = exe.jobs.length := reopens.length_eq
  have last_eq : ∀ jid, lastFor jid (log ++ [.opened]) = lastFor jid log := by
    intro jid
    rw [lastFor_append, lastFor_opened]
    rfl
  refine ⟨⟨?_, ?_, fun _ _ _ found => none_followed.found found, ?_, ?_⟩, ?_⟩
  · exact cancels_eq ▸ heard.distinct
  · intro jid inside
    rw [last_eq]
    exact heard.wanted jid (cancels_eq ▸ inside)
  · intro jid outside
    rw [last_eq]
    exact heard.known jid (length_eq ▸ outside)
  · intro jid job found
    have unfollowed := none_followed.found found
    refine ⟨by simp [unfollowed], fun _ _ now => ?_, fun _ active => ?_, fun _ => unfollowed,
      fun _ => unfollowed, by simp [unfollowed]⟩
    · simp [Wanting] at now
    · have bound : jid < exe.jobs.length := length_eq ▸ (lt_length found)
      exact .inr (again jid (List.mem_range.mpr bound) _ (kindAt_of_found found) active)
  · intro jid inside
    refine (reopens.rewant jid inside).resolve_left ?_
    simp [unused]

theorem foldl_setFollowed_found (ids : List JobId) (exe : Executor) (jid : JobId) :
    (ids.foldl (setFollowed · true) exe).jobs[jid]? =
      (exe.jobs[jid]?).map fun job => if jid ∈ ids then { job with followed := true } else job := by
  induction ids generalizing exe with
  | nil => simp
  | cons first ids ih =>
    rw [List.foldl_cons, ih, setFollowed, List.getElem?_modify]
    by_cases same : first = jid
    · subst same
      cases exe.jobs[first]? with
      | none => rfl
      | some job => simp
    · cases exe.jobs[jid]? with
      | none => simp
      | some job => simp [same, Ne.symm same]

theorem want_found (exe : Executor) (first jid : JobId) :
    (exe.want first).jobs[jid]? = (exe.jobs[jid]?).map fun job =>
      if first = jid then { job with state := .wanted none "", followed := true } else job := by
  rw [want, setFollowed, List.getElem?_modify]
  by_cases same : first = jid
  · subst same
    cases found : exe.jobs[first]? with
    | none => simp [toState, found]
    | some job => simp [toState_found found]
  · have kept : (exe.toState first (.wanted none "")).jobs[jid]? = exe.jobs[jid]? := by
      cases found : exe.jobs[first]? with
      | none => simp [toState, found]
      | some job => simp [toState_eq found, getElem?_set_ne same]
    simp [kept, same]

theorem foldl_want_found (ids : List JobId) (exe : Executor) (jid : JobId) :
    (ids.foldl want exe).jobs[jid]? = (exe.jobs[jid]?).map fun job =>
      if jid ∈ ids then { job with state := .wanted none "", followed := true } else job := by
  induction ids generalizing exe with
  | nil => simp
  | cons first ids ih =>
    rw [List.foldl_cons, ih, want_found, Option.map_map]
    congr 1
    funext job
    by_cases same : first = jid
    · simp [same]
    · simp [same, Ne.symm same]

/-- Flags and Wants are written to the jobs only. -/
structure Mute (exe exe' : Executor) : Prop where
  cancels_eq : exe'.cancels = exe.cancels
  rewant_eq : exe'.rewant = exe.rewant
  stream_eq : exe'.stream = exe.stream
  length_eq : exe'.jobs.length = exe.jobs.length

theorem foldl_mute {round : Executor → JobId → Executor} (mute : ∀ exe jid, Mute exe (round exe jid))
    (ids : List JobId) (exe : Executor) : Mute exe (ids.foldl round exe) := by
  induction ids generalizing exe with
  | nil => exact ⟨rfl, rfl, rfl, rfl⟩
  | cons first ids ih =>
    have step := mute exe first
    have rest := ih (round exe first)
    exact ⟨rest.cancels_eq.trans step.cancels_eq, rest.rewant_eq.trans step.rewant_eq,
      rest.stream_eq.trans step.stream_eq, rest.length_eq.trans step.length_eq⟩

theorem setFollowed_mute (exe : Executor) (jid : JobId) : Mute exe (exe.setFollowed true jid) :=
  ⟨rfl, rfl, rfl, by simp [setFollowed]⟩

theorem want_mute (exe : Executor) (jid : JobId) : Mute exe (exe.want jid) := by
  cases found : exe.jobs[jid]? with
  | none => exact ⟨by simp [want, setFollowed, toState, found], by simp [want, setFollowed, toState, found],
      by simp [want, setFollowed, toState, found], by simp [want, setFollowed, toState, found]⟩
  | some job => exact ⟨by simp [want, setFollowed, toState_eq found], by simp [want, setFollowed, toState_eq found],
      by simp [want, setFollowed, toState_eq found], by simp [want, setFollowed, toState_eq found]⟩

theorem flush_down (down : exe.stream = false) (arranged : List JobId) :
    exe.flush arranged = (exe.cancels.map .cancel, { exe with cancels := [] }) := by
  simp [flush, takeCancels, takeWants, down]

/-- What a flush does while the stream is up. -/
theorem flush_up (up : exe.stream = true) (arranged : List JobId) :
    (exe.flush arranged).1 = exe.cancels.map .cancel ++ (exe.rewant ++ arranged.take exe.room).map .want ∧
      (exe.flush arranged).2.cancels = [] ∧ (exe.flush arranged).2.rewant = [] ∧
      (exe.flush arranged).2.stream = true ∧ (exe.flush arranged).2.jobs.length = exe.jobs.length ∧
      ∀ jid, (exe.flush arranged).2.jobs[jid]? = (exe.jobs[jid]?).map fun job =>
        if jid ∈ arranged.take exe.room then { job with state := .wanted none "", followed := true }
        else if jid ∈ exe.rewant then { job with followed := true } else job := by
  have flags := foldl_mute setFollowed_mute exe.rewant { exe with cancels := [], rewant := [] }
  have wants := foldl_mute want_mute (arranged.take exe.room)
    (exe.rewant.foldl (setFollowed · true) { exe with cancels := [], rewant := [] })
  have flushed : exe.flush arranged =
      (exe.cancels.map .cancel ++ (exe.rewant ++ arranged.take exe.room).map .want,
        { (arranged.take exe.room).foldl want
            (exe.rewant.foldl (setFollowed · true) { exe with cancels := [], rewant := [] }) with
          wantable := arranged.drop exe.room }) := by
    simp only [flush, takeCancels, takeWants, up, if_true]
    rfl
  rw [flushed]
  refine ⟨rfl, wants.cancels_eq.trans flags.cancels_eq, wants.rewant_eq.trans flags.rewant_eq,
    (wants.stream_eq.trans flags.stream_eq).trans up, wants.length_eq.trans flags.length_eq, fun jid => ?_⟩
  simp only
  rw [foldl_want_found, foldl_setFollowed_found, Option.map_map]
  congr 1
  funext job
  by_cases picked : jid ∈ arranged.take exe.room
  · by_cases again : jid ∈ exe.rewant
    · simp [picked, again]
    · simp [picked, again]
  · simp [picked]

/-- What the scheduler knows after a flush. -/
theorem wanting_flushed (log : Said) (cancels wants : List JobId) (jid : JobId) :
    Wanting (log ++ (cancels.map .cancel ++ wants.map .want)) jid ↔
      jid ∈ wants ∨ jid ∉ cancels ∧ Wanting log jid := by
  have silent : ∀ notice ∈ (cancels.map .cancel ++ wants.map .want : Said), notice.isOpened = false := by
    intro notice inside
    rcases mem_append.mp inside with cancel | want
    · obtain ⟨key, -, rfl⟩ := mem_map.mp cancel
      rfl
    · obtain ⟨key, -, rfl⟩ := mem_map.mp want
      rfl
  rw [Wanting, current_append silent, lastFor_append, lastFor_append, lastFor_wants, lastFor_cancels]
  by_cases wanted : jid ∈ wants
  · simp [wanted]
  · by_cases cancelled : jid ∈ cancels
    · simp [wanted, cancelled]
    · simp [wanted, cancelled, Wanting]

theorem known_flushed (heard : Heard log (between exe named thrown)) {wants : List JobId}
    (present : ∀ jid ∈ wants, jid < exe.jobs.length) (outside : exe.jobs.length ≤ jid) :
    lastFor jid (log ++ (exe.cancels.map .cancel ++ wants.map .want)) = none := by
  have unknown := heard.known jid outside
  have no_want : jid ∉ wants := fun inside => absurd (present jid inside) (Nat.not_lt.mpr outside)
  have no_cancel : jid ∉ exe.cancels := by
    intro inside
    cases unknown.symm.trans (heard.wanted jid inside)
  rw [lastFor_append, lastFor_append, lastFor_wants, lastFor_cancels, if_neg no_want, if_neg no_cancel]
  simpa using unknown

theorem picked_wantable {arranged : List JobId} (sorted : exe.Arranges arranged)
    (picked : jid ∈ arranged.take exe.room) : exe.kindAt jid = some .wantable := by
  have still : jid ∈ exe.stillWantable := sorted.1.subset (List.take_subset _ _ picked)
  simpa using (List.mem_filter.mp still).2

theorem lt_of_kindAt {kind : Kind} (kind_eq : exe.kindAt jid = some kind) :
    jid < exe.jobs.length := by
  obtain ⟨job, found, -⟩ := exists_of_kindAt kind_eq
  exact lt_length found

/-- A flush tells the scheduler what changed. -/
theorem Heard.flush (heard : Heard log (between exe named thrown)) {arranged : List JobId}
    (placed : ∀ jid ∈ exe.rewant, Placed exe jid) (sorted : exe.stream = true → exe.Arranges arranged) :
    Heard (log ++ (exe.flush arranged).1) (between (exe.flush arranged).2 named thrown) := by
  cases up : exe.stream with
  | false =>
    rw [flush_down up]
    refine heard_down up (heard.unfollowed_of_down up) (by simp) (by simp) fun jid outside => ?_
    simpa using @known_flushed log jid exe named thrown heard [] (by simp) outside
  | true =>
    obtain ⟨said_eq, cancels_eq, rewant_eq, stream_eq, length_eq, jobs_eq⟩ := flush_up up arranged
    have wants_present : ∀ jid ∈ exe.rewant ++ arranged.take exe.room, jid < exe.jobs.length := by
      intro jid inside
      rcases mem_append.mp inside with again | picked
      · exact (placed jid again).elim lt_of_kindAt lt_of_kindAt
      · exact lt_of_kindAt (picked_wantable (sorted up) picked)
    rw [said_eq]
    refine ⟨by simp [between, cancels_eq], by simp [between, cancels_eq], by simp [between, cancels_eq], ?_, ?_⟩
    · intro jid outside
      exact known_flushed heard wants_present (length_eq ▸ outside)
    · intro jid job' found'
      have found' : (exe.flush arranged).2.jobs[jid]? = some job' := found'
      rw [jobs_eq] at found'
      obtain ⟨job, found, rfl⟩ := Option.map_eq_some_iff.mp found'
      have old := heard.follows jid job found
      have kind_eq := kindAt_of_found found
      have placed_active : jid ∈ exe.rewant → job.state.kind = .assigned ∨ job.state.kind = .running := by
        intro again
        simpa [Placed, kind_eq] using placed jid again
      have up' : (between (exe.flush arranged).2 named thrown).exe.stream = true := stream_eq
      by_cases picked : jid ∈ arranged.take exe.room
      · rw [if_pos picked]
        exact ⟨fun _ => (wanting_flushed _ _ _ _).mpr (.inl (List.mem_append_right _ picked)), by simp,
          fun _ _ => .inl rfl, fun down => absurd (up'.symm.trans down) (by simp), by simp, by simp⟩
      · rw [if_neg picked]
        by_cases again : jid ∈ exe.rewant
        · rw [if_pos again]
          refine ⟨fun _ => (wanting_flushed _ _ _ _).mpr (.inl (List.mem_append_left _ again)), by simp,
            fun _ _ => .inl rfl, fun down => absurd (up'.symm.trans down) (by simp), ?_, ?_⟩
          · rcases placed_active again with assigned | running
            · simp [assigned]
            · simp [running]
          · rcases placed_active again with assigned | running
            · simp [assigned]
            · simp [running]
        · rw [if_neg again]
          refine ⟨fun followed => (wanting_flushed _ _ _ _).mpr (.inr ⟨fun inside => ?_, old.wanting followed⟩),
            fun _ unfollowed now => ?_, fun _ busy => .inl ((old.active up busy).resolve_right again),
            fun down => absurd (up'.symm.trans down) (by simp), old.ended, old.blocked⟩
          · have cleared := heard.unfollowed jid inside job found
            simp [followed] at cleared
          · rcases (wanting_flushed _ _ _ _).mp now with wanted | ⟨no_cancel, before⟩
            · exact absurd wanted (by simp [picked, again])
            · exact absurd (old.cancelled up unfollowed before) no_cancel

/-! ## Runs -/

/-- What holds between two acts of `Run`. -/
structure Talks (cfg : Config) (exe : Executor) (log : Said) : Prop where
  cfg_eq : exe.cfg = cfg
  settled : exe.rewant = []
  paired : Paired log
  books : ∃ named thrown, Ledger (between exe named thrown) ∧ Heard log (between exe named thrown)

theorem Heard.start (heard : Heard log (between exe named thrown)) (call : Call) :
    Heard log (between (call.start exe) named thrown) := by
  cases call with
  | abandon => exact heard.keep (fun _ x found => ⟨x, found, rfl, rfl⟩) rfl rfl rfl rfl fun _ _ _ _ _ => id
  | _ => exact heard

theorem Heard.rename (heard : Heard log (between exe named thrown)) (named' : List (JobId × JobId))
    (thrown' : List JobId) : Heard log (between exe named' thrown') :=
  heard.aside fun _ _ _ _ _ => id

/-- The flush after the opening of a stream, or alone. -/
theorem Talks.flush {arranged : List JobId} (cfg_eq : exe.cfg = cfg) (paired : Paired log)
    (ledger : Ledger (between exe named thrown)) (heard : Heard log (between exe named thrown))
    (placed : ∀ jid ∈ exe.rewant, Placed exe jid) (settled : exe.stream = false → exe.rewant = [])
    (sorted : exe.stream = true → exe.Arranges arranged) :
    Talks cfg (exe.flush arranged).2 (log ++ (exe.flush arranged).1) := by
  have allowed : (Call.takeWants arranged).allowed exe.takeCancels.2 := sorted
  obtain ⟨thrown₁, ledger₁, later₁, -⟩ := Call.takeCancels.ledger ledger trivial
  obtain ⟨thrown₂, ledger₂, later₂, -⟩ := (Call.takeWants arranged).ledger ledger₁ allowed
  refine ⟨(later₂.cfg_eq.trans later₁.cfg_eq).trans cfg_eq, ?_, ?_, ?_⟩
  · cases up : exe.stream with
    | false =>
      rw [flush_down up]
      exact settled up
    | true => exact (flush_up up arranged).2.2.1
  · cases up : exe.stream with
    | false =>
      rw [flush_down up]
      exact paired.append_cancels heard.distinct heard.wanted
    | true =>
      rw [(flush_up up arranged).1, ← List.append_assoc]
      exact (paired.append_cancels heard.distinct heard.wanted).append_wants _
  · exact ⟨_, _, ledger₂, (heard.flush placed sorted).rename _ _⟩

theorem Talks.act (talks : Talks cfg exe log) {act : Act} (allowed : act.allowed exe) :
    Talks cfg (act.perform exe).2 (log ++ (act.perform exe).1) := by
  obtain ⟨cfg_eq, settled, paired, named, thrown, ledger, heard⟩ := talks
  cases act with
  | flush arranged =>
    exact Talks.flush cfg_eq paired ledger heard (by simp [settled]) (fun _ => settled) allowed
  | attach arranged =>
    obtain ⟨down, sorted⟩ := allowed
    obtain ⟨heard', placed⟩ := heard.connected down settled
    obtain ⟨thrown', ledger', later, -⟩ := Call.connected.ledger ledger trivial
    have up : exe.connected.stream = true :=
      (foldl_reconnect (List.range exe.jobs.length) { exe with stream := true }).1.stream_eq
    have flushed : Talks cfg (exe.connected.flush arranged).2
        (log ++ [.opened] ++ (exe.connected.flush arranged).1) :=
      Talks.flush (later.cfg_eq.trans cfg_eq) (paired.append_other (by simp)) ledger' (heard'.rename _ _)
        placed (fun down => absurd (up.symm.trans down) (by simp)) fun _ => sorted
    simpa [Act.perform, attach] using flushed
  | call made =>
    obtain ⟨allowed, fits⟩ := allowed
    obtain ⟨thrown', moves, -⟩ := made.moves ledger allowed
    have ledger' := moves.ledger (ledger.start made)
    have later := moves.later
    simp only [Act.perform, List.append_nil]
    have plain : ¬ made.onStream → Talks cfg (made.perform exe) log := by
      intro off
      refine ⟨later.cfg_eq.trans ((made.start_cfg exe).trans cfg_eq), ?_, paired, _, _, ledger',
        moves.heard off (heard.start made)⟩
      refine (moves.rewant_eq off).trans (Eq.trans ?_ settled)
      cases made with
      | _ => rfl
    cases made with
    | connected => exact fits.elim
    | takeWants arranged => exact fits.elim
    | takeCancels => exact fits.elim
    | disconnected =>
      exact ⟨later.cfg_eq.trans cfg_eq, settled, paired, _, _, ledger', heard.disconnected.rename _ _⟩
    | unsent ids =>
      have rewant_eq := (unsent_kept ids exe (heard.unfollowed_of_down fits)).2.2.2.1
      exact ⟨later.cfg_eq.trans cfg_eq, rewant_eq.trans settled, paired, _, _, ledger',
        (heard.unsent fits ids).rename _ _⟩
    | _ => exact plain id

theorem Driven.talks (driven : Driven cfg exe log) : Talks cfg exe log := by
  refine Run.Reached.invariant (P := Talks cfg) ?_ ?_ driven
  · rintro exe rfl
    refine ⟨rfl, rfl, ?_, [], [], ledger_start cfg, ?_⟩
    · intro key before middle after log_eq
      simp at log_eq
    · exact heard_down rfl (by simp [Unfollowed]) (by simp) (by simp) fun _ _ => rfl
  · rintro exe log said exe' talks ⟨act, allowed, performed⟩
    have next := talks.act allowed
    rwa [performed] at next

/-! ## Examples of runs -/

instance (exe : Executor) (act : Act) : Decidable (act.allowed exe) :=
  match act with
  | .flush _ => inferInstanceAs (Decidable (_ → _))
  | .attach _ => inferInstanceAs (Decidable (_ ∧ _))
  | .call made =>
    match made with
    | .connected | .takeWants _ | .takeCancels | .add _ _ | .blockOn _ _ | .disconnected | .unsent _
    | .onAssigned _ _ | .onCached _ | .onUnplaceable _ _ _ | .onPlaceable _ | .reap _ _ | .next
    | .finished _ _ | .bounced _ | .abandon => by
      simp only [Act.allowed]
      infer_instance

/-- Acts one after the other, with what is said. -/
def drive (stage : Executor × Said) (acts : List Act) : Executor × Said :=
  acts.foldl (fun stage act => ((act.perform stage.1).2, stage.2 ++ (act.perform stage.1).1)) stage

/-- Each act of a list may come after those before it. -/
def Drives : Executor → List Act → Prop
  | _, [] => True
  | exe, act :: acts => act.allowed exe ∧ Drives (act.perform exe).2 acts

instance Drives.decidable : ∀ (exe : Executor) (acts : List Act), Decidable (Drives exe acts)
  | _, [] => .isTrue trivial
  | exe, act :: acts =>
    have := Drives.decidable (act.perform exe).2 acts
    inferInstanceAs (Decidable (_ ∧ _))

theorem Driven.drive (driven : Driven cfg exe log) (acts : List Act) (drives : Drives exe acts) :
    Driven cfg (drive (exe, log) acts).1 (drive (exe, log) acts).2 := by
  induction acts generalizing exe log with
  | nil => exact driven
  | cons act acts ih =>
    obtain ⟨allowed, rest⟩ := drives
    exact ih (.step driven ⟨act, allowed, rfl⟩) rest

/-- Want and Cancel tell the scheduler exactly what the client still follows. -/
theorem scheduler_told_follows (driven : Driven cfg exe log) :
    (∀ jid before middle after, log = before ++ .cancel jid :: (middle ++ .cancel jid :: after) →
      .want jid ∈ middle) ∧
    ∀ act : Act, act.Flushes → act.allowed exe → (act.perform exe).2.stream = true →
      ∀ jid job, (act.perform exe).2.jobs[jid]? = some job →
        (job.followed = true ↔ lastFor jid (current (log ++ (act.perform exe).1)) = some (.want jid)) ∧
        (job.state.kind.isActive = true → job.followed = true) ∧
        (job.state.kind = .done ∨ job.state.kind = .blocked → job.followed = false) := by
  have talks := driven.talks
  refine ⟨talks.paired, fun act flushes allowed up jid job found => ?_⟩
  obtain ⟨-, settled, -, named, thrown, -, heard⟩ := talks.act allowed
  have follows := heard.follows jid job found
  have flushed : (act.perform exe).2.cancels = [] := by
    cases act with
    | flush arranged =>
      cases before : exe.stream with
      | false => simp [Act.perform, flush_down before]
      | true => exact (flush_up before arranged).2.1
    | attach arranged =>
      have opened : exe.connected.stream = true :=
        (foldl_reconnect (List.range exe.jobs.length) { exe with stream := true }).1.stream_eq
      exact (flush_up opened arranged).2.1
    | call made => exact flushes.elim
  refine ⟨⟨follows.wanting, fun now => ?_⟩, fun busy => ?_, ?_⟩
  · by_contra unfollowed
    have waits := follows.cancelled up (Bool.eq_false_of_not_eq_true unfollowed) now
    simp [between, flushed] at waits
  · refine (follows.active up busy).resolve_right ?_
    simp [between, settled]
  · rintro (ended | blocked)
    · exact follows.ended ended
    · by_contra followed
      have held := follows.blocked blocked (Bool.eq_true_of_not_eq_false followed)
      simp [Stage.Held, between] at held

/-- Two builds; one of them ends, the other one runs on while the stream breaks. -/
def broken : List Act :=
  [.call (.add 1 []), .call (.add 2 []), .attach [1, 0], .call (.onAssigned 0 { addr := "w" }),
    .call (.onAssigned 1 { addr := "w" }), .call .next, .call .next, .call (.finished 0 true),
    .call .disconnected]

theorem scheduler_told_follows_broken : ∃ exe log, Driven { threads := 2 } exe log ∧
    (Act.attach []).allowed exe ∧ ((Act.attach []).perform exe).1 = [.opened, .cancel 0, .want 1] ∧
    ∃ job, ((Act.attach []).perform exe).2.jobs[1]? = some job ∧
      (job.followed = true ↔
        lastFor 1 (current (log ++ ((Act.attach []).perform exe).1)) = some (.want 1)) := by
  have start : Driven { threads := 2 } { cfg := { threads := 2 } } [] := .start rfl
  have driven := start.drive broken (by decide +kernel)
  have allowed : (Act.attach []).allowed (drive ({ cfg := { threads := 2 } }, []) broken).1 := by
    decide +kernel
  refine ⟨_, _, driven, allowed, by decide +kernel,
    ⟨.running ⟨"w", 0, ""⟩ none, 2, [], none, 0, true⟩, by decide +kernel, ?_⟩
  exact ((scheduler_told_follows driven).2 (.attach []) trivial allowed (by decide +kernel) 1 _ (by decide +kernel)).1

end NixGrpcStore.Exec
