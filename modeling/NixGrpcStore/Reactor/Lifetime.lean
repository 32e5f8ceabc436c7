import NixGrpcStore.Reactor.Endpoints

/-!
# How long a reactor lives

A reactor deletes itself in `OnDone`, which gRPC runs at any time after `Finish` was called, all started
operations have completed and every callback has returned.  The closures that the dispatcher runs after it
has unlocked are no callbacks: what keeps the reactor alive for them is `writing`, which `Finish` waits for.
A closure that finds nothing to write clears `writing` and then still calls `maybeDone`; if another thread
finishes the stream in between, the reactor is gone by then.
-/

namespace NixGrpcStore.Reactor

open Crew Tally

/-- A reactor, and whether it was deleted. -/
structure Owned (σ : Type) where
  reactor : σ
  freed : Bool := false

/-- What may happen to a reactor that deletes itself. -/
inductive Life (α : Type)
  | step (act : α)
  | onDone

/-- One step of a reactor that is not deleted. -/
def Life.perform {σ α : Type} (perform : σ → α → Option σ) (mayFree : σ → Bool) (owned : Owned σ) :
    Life α → Option (Owned σ)
  | .step act => if owned.freed then none else (perform owned.reactor act).map fun reactor => { reactor }
  | .onDone => if !owned.freed && mayFree owned.reactor then some { owned with freed := true } else none

/-- A step meets the condition. -/
def Life.Meets {σ α : Type} (meets : σ → α → Prop) (s : σ) : Life α → Prop
  | .step act => meets s act
  | .onDone => True

instance {σ α : Type} (meets : σ → α → Prop) [∀ s, DecidablePred (meets s)] (s : σ) :
    DecidablePred (Life.Meets meets s)
  | .step act => inferInstanceAs (Decidable (meets s act))
  | .onDone => .isTrue trivial

/-- The runs of a reactor whose steps meet a condition. -/
abbrev Life.Reached {σ α : Type} (start : σ → Prop) (perform : σ → α → Option σ) (mayFree : σ → Bool)
    (meets : σ → α → Prop) : Owned σ → List (Life α) → Prop :=
  Run.Reached (fun owned => start owned.reactor ∧ owned.freed = false) fun owned lives owned' =>
    ∃ life, lives = [life] ∧ life.Meets meets owned.reactor ∧ life.perform perform mayFree owned = some owned'

section Life

variable {σ α : Type} {start : σ → Prop} {perform : σ → α → Option σ} {mayFree : σ → Bool} {meets : σ → α → Prop}

/-- What every step that meets the condition keeps holds of every reactor, and a deleted one could be deleted. -/
theorem Life.Reached.invariant {P : σ → Prop} (initial : ∀ s, start s → P s)
    (keeps : ∀ s act s', P s → meets s act → perform s act = some s' → P s') {owned : Owned σ}
    {lives : List (Life α)} (reached : Life.Reached start perform mayFree meets owned lives) :
    P owned.reactor ∧ (owned.freed = true → mayFree owned.reactor = true) := by
  apply Run.Reached.state_invariant
    (P := fun owned : Owned σ => P owned.reactor ∧ (owned.freed = true → mayFree owned.reactor = true)) _ _ reached
  · rintro owned ⟨is_start, not_freed⟩
    exact ⟨initial _ is_start, fun freed => by cases not_freed.symm.trans freed⟩
  · rintro owned lives owned' ⟨holds, _⟩ ⟨life, _, met, performed⟩
    cases life with
    | step act =>
      simp only [Life.perform] at performed
      split_ifs at performed
      obtain ⟨reactor, stepped, rfl⟩ := Option.map_eq_some_iff.mp performed
      exact ⟨keeps _ _ _ holds met stepped, nofun⟩
    | onDone =>
      simp only [Life.perform] at performed
      split_ifs at performed with may_free
      simp only [Bool.and_eq_true] at may_free
      cases performed
      exact ⟨holds, fun _ => may_free.2⟩

/-- Take the steps one after the other as long as they meet the condition. -/
def Life.play (perform : σ → α → Option σ) (mayFree : σ → Bool) (meets : σ → α → Prop) [∀ s, DecidablePred (meets s)]
    (owned : Owned σ) (life : Life α) : Option (Owned σ) :=
  if life.Meets meets owned.reactor then life.perform perform mayFree owned else none

theorem Life.reached_play [∀ s, DecidablePred (meets s)] {owned owned' : Owned σ}
    {earlier lives : List (Life α)}
    (reached : Life.Reached start perform mayFree meets owned earlier)
    (played : Run.play (Life.play perform mayFree meets) lives owned = some owned') :
    Life.Reached start perform mayFree meets owned' (earlier ++ lives) := by
  induction lives generalizing owned earlier with
  | nil =>
    cases played
    simpa using reached
  | cons life lives ih =>
    obtain ⟨mid, performed, rest⟩ := Option.bind_eq_some_iff.mp played
    simp only [Life.play] at performed
    split_ifs at performed with met
    simpa using ih (.step reached ⟨life, rfl, met, performed⟩) rest

end Life

namespace SendReactor

variable {Msg : Type}

/-- gRPC may run `OnDone`. -/
def mayFree (r : SendReactor Msg) : Bool :=
  !r.finishes.isEmpty && r.outstanding = 0 && !r.reading &&
    r.threads.all fun thread => !thread.callback || thread.pc = .ended

/-- A thread whose `maybeDone` finds the stream done does so while no other closure has yet to call it. -/
def Act.Clear (r : SendReactor Msg) : Act Msg → Prop
  | .run index =>
    r.threads[index]?.map Thread.pc = some .maybeDone → r.readsDone = true → r.writing = false →
      ∀ closure ∈ r.threads.eraseIdx index, closure.callback = false → closure.pc ≠ .maybeDone
  | _ => True

instance (r : SendReactor Msg) : DecidablePred (Act.Clear r)
  | .run index => inferInstanceAs (Decidable (r.threads[index]?.map Thread.pc = some .maybeDone →
    r.readsDone = true → r.writing = false →
      ∀ closure ∈ r.threads.eraseIdx index, closure.callback = false → closure.pc ≠ .maybeDone))
  | .send _ => .isTrue trivial
  | .readsEnd _ => .isTrue trivial
  | .writeDone _ => .isTrue trivial
  | .cancel => .isTrue trivial

/-- A closure that goes on uses the deleted reactor. -/
def UsesFreed (owned : Owned (SendReactor Msg)) : Prop :=
  owned.freed = true ∧ ∃ thread ∈ owned.reactor.threads, thread.callback = false ∧ thread.pc ≠ .ended

/-- Where a closure can be. -/
def deferred : SendPc → Bool
  | .writeNext => true
  | .startWrite => true
  | .maybeDone => true
  | .finish => true
  | .ended => true
  | _ => false

/-- Where closures are; once the stream is finished all but the one that finishes it have ended. -/
structure Sheltered (r : SendReactor Msg) : Prop where
  closures : ∀ (index : ℕ) (thread : Thread SendPc), r.threads[index]? = some thread → thread.callback = false →
    deferred thread.pc = true
  finished : r.finished = true → ∀ (index : ℕ) (thread : Thread SendPc), r.threads[index]? = some thread →
    thread.callback = false → thread.pc = .ended ∨ thread.pc = .finish

variable {r r' : SendReactor Msg} {index : ℕ} {thread : Thread SendPc}

/-- A closure stays where closures can be. -/
theorem advance_deferred (r : SendReactor Msg) {pc : SendPc} (is_deferred : deferred pc = true) :
    deferred (r.advance pc).2 = true := by
  cases pc with
  | writeNext =>
    obtain ⟨_, filled⟩ | ⟨_, filled⟩ := r.fill_eq
    · simp only [advance, filled]
      split_ifs <;> rfl
    · simp only [advance, filled]
      split_ifs <;> rfl
  | maybeDone =>
    simp only [advance]
    split_ifs <;> rfl
  | startWrite => rfl
  | finish => rfl
  | ended => rfl
  | ending status => cases is_deferred
  | writeFailed => cases is_deferred
  | closing => cases is_deferred

/-- Only `maybeDone` finishes a stream. -/
theorem advance_finished (r : SendReactor Msg) (pc : SendPc) (finished : (r.advance pc).1.finished = true) :
    r.finished = true ∨ pc = .maybeDone ∧ r.readsDone = true ∧ r.writing = false := by
  cases pc with
  | writeNext =>
    left
    obtain ⟨_, filled⟩ | ⟨_, filled⟩ := r.fill_eq
    · simp only [advance, filled] at finished
      split_ifs at finished <;> exact finished
    · simp only [advance, filled] at finished
      split_ifs at finished <;> exact finished
  | maybeDone =>
    by_cases done : r.readsDone && !r.writing && !r.finished
    · simp only [Bool.and_eq_true, Bool.not_eq_eq_eq_not, Bool.not_true] at done
      exact .inr ⟨rfl, done.1⟩
    · rw [advance, if_neg done] at finished
      exact .inl finished
  | _ => exact .inl finished

/-- While the stream is idle a closure has ended, or stands before `maybeDone` or `Finish`. -/
theorem Sound.idle_closure (sound : Sound r) (idle : r.writing = false)
    (found : r.threads[index]? = some thread) (is_deferred : deferred thread.pc = true) :
    thread.pc = .maybeDone ∨ thread.pc = .ended ∨ thread.pc = .finish := by
  have no_writer : writes thread.pc = false := by
    cases is_writer : writes thread.pc with
    | false => rfl
    | true => cases idle.symm.trans (sound.sole found is_writer).2.2
  cases pc_eq : thread.pc <;> simp_all [deferred, writes]

section Steps

variable (sheltered : Sheltered r)
include sheltered

theorem Sheltered.run (sound : Sound r) (found : r.threads[index]? = some thread)
    (clear : Act.Clear r (.run index)) :
    Sheltered { (r.advance thread.pc).1 with
      threads := r.threads.set index { thread with pc := (r.advance thread.pc).2 } } := by
  refine ⟨?_, ?_⟩
  · intro other moved moved_at closure
    obtain ⟨_, rfl⟩ | ⟨_, old⟩ := set_cases moved_at
    · exact r.advance_deferred (sheltered.closures index thread found closure)
    · exact sheltered.closures other moved old closure
  · intro finished other moved moved_at closure
    obtain before | ⟨at_done, reads_done, idle⟩ := r.advance_finished thread.pc finished
    · obtain ⟨_, rfl⟩ | ⟨_, old⟩ := set_cases moved_at
      · left
        obtain at_end | at_finish := sheltered.finished before index thread found closure
        · rw [at_end]
          rfl
        · rw [at_finish]
          rfl
      · exact sheltered.finished before other moved old closure
    · obtain ⟨_, rfl⟩ | ⟨elsewhere, old⟩ := set_cases moved_at
      · -- the thread that found the stream done
        rw [at_done]
        simp only [advance]
        split_ifs
        · exact .inr rfl
        · exact .inl rfl
      · obtain waits | at_end | at_finish := sound.idle_closure idle old (sheltered.closures other moved old closure)
        · have elsewhere_mem := List.mem_eraseIdx_iff_getElem?.mpr ⟨other, elsewhere, old⟩
          exact absurd waits (clear (by rw [found, Option.map_some, at_done]) reads_done idle
            moved elsewhere_mem closure)
        · exact .inl at_end
        · exact .inr at_finish

/-- A callback starts. -/
theorem Sheltered.spawned {pc : SendPc} (finished_eq : r'.finished = r.finished)
    (threads_eq : r'.threads = r.threads ++ [⟨pc, true⟩]) : Sheltered r' := by
  have old {other : ℕ} {moved : Thread SendPc} (moved_at : r'.threads[other]? = some moved)
      (closure : moved.callback = false) : r.threads[other]? = some moved := by
    rw [threads_eq] at moved_at
    rcases push_cases moved_at with old | ⟨-, rfl⟩
    · exact old
    · cases closure
  refine ⟨fun other moved moved_at closure => sheltered.closures other moved (old moved_at closure) closure, ?_⟩
  rw [finished_eq]
  exact fun finished other moved moved_at closure => sheltered.finished finished other moved
    (old moved_at closure) closure

theorem Sheltered.send (sound : Sound r) (msg : Msg) : Sheltered (r.send msg).2 := by
  unfold SendReactor.send
  split_ifs with refused writing
  · exact ⟨sheltered.closures, sheltered.finished⟩
  · exact ⟨sheltered.closures, sheltered.finished⟩
  · have unfinished : r.finished = false := by
      cases finished : r.finished with
      | false => rfl
      | true => simp [sound.closed (sound.finished finished).1] at refused
    refine ⟨?_, fun finished => ?_⟩
    · intro other moved moved_at closure
      rcases push_cases moved_at with old | ⟨-, rfl⟩
      · exact sheltered.closures other moved old closure
      · rfl
    · cases unfinished.symm.trans finished

theorem Sheltered.perform (sound : Sound r) {act : Act Msg} (clear : act.Clear r)
    (performed : act.perform r = some r') : Sheltered r' := by
  cases act with
  | send msg =>
    cases performed
    exact sheltered.send sound msg
  | run index =>
    simp only [Act.perform] at performed
    split at performed
    case h_1 thread found =>
      cases performed
      exact sheltered.run sound found clear
    case h_2 => cases performed
  | readsEnd status =>
    simp only [Act.perform] at performed
    split_ifs at performed
    cases performed
    exact sheltered.spawned rfl rfl
  | writeDone ok =>
    by_cases outstanding : 0 < r.outstanding
    · rw [Act.perform, if_pos outstanding] at performed
      cases performed
      exact sheltered.spawned rfl rfl
    · rw [Act.perform, if_neg outstanding] at performed
      cases performed
  | cancel =>
    cases performed
    exact sheltered.spawned rfl rfl

/-- When a sheltered reactor may be deleted no closure has anything left to do with it. -/
theorem Sheltered.not_used (sound : Sound r) (may_free : r.mayFree = true) :
    ∀ thread ∈ r.threads, thread.callback = false → thread.pc = .ended := by
  intro thread mem closure
  obtain ⟨index, found⟩ := List.getElem?_of_mem mem
  simp only [mayFree, Bool.and_eq_true, Bool.not_eq_eq_eq_not, Bool.not_true, List.isEmpty_eq_false_iff] at may_free
  have called := List.length_pos_of_ne_nil may_free.1.1.1
  have finishes := sound.finishes
  have finished : r.finished = true := by
    cases finished : r.finished with
    | true => rfl
    | false =>
      rw [finished, Bool.toNat_false] at finishes
      omega
  obtain at_end | at_finish := sheltered.finished finished index thread found closure
  · exact at_end
  · have counted := le_count SendReactor.finishing found
    rw [at_finish] at counted
    rw [finished, Bool.toNat_true] at finishes
    simp only [SendReactor.finishing, Bool.toNat_true] at counted
    omega

end Steps

end SendReactor

namespace EdsReactor

variable {Member Resource : Type}

/-- gRPC may run `OnDone`. -/
def mayFree (r : EdsReactor Member Resource) : Bool :=
  !r.finishes.isEmpty && r.outstanding = 0 && !r.reading &&
    r.threads.all fun thread => !thread.callback || thread.pc = .ended

/-- A thread whose `maybeDone` finds the stream done does so while no other closure has yet to call it. -/
def Act.Clear (r : EdsReactor Member Resource) : Act Member → Prop
  | .run index =>
    r.threads[index]?.map Thread.pc = some .maybeDone → r.phase = .readsDone → r.writing = false →
      ∀ closure ∈ r.threads.eraseIdx index, closure.callback = false → closure.pc ≠ .maybeDone
  | _ => True

instance (r : EdsReactor Member Resource) : DecidablePred (Act.Clear r)
  | .run index => inferInstanceAs (Decidable (r.threads[index]?.map Thread.pc = some .maybeDone →
    r.phase = .readsDone → r.writing = false →
      ∀ closure ∈ r.threads.eraseIdx index, closure.callback = false → closure.pc ≠ .maybeDone))
  | .readDone _ _ => .isTrue trivial
  | .readsEnd => .isTrue trivial
  | .writeDone _ => .isTrue trivial
  | .publish _ => .isTrue trivial
  | .rouse => .isTrue trivial
  | .renderElsewhere _ => .isTrue trivial
  | .setActive _ => .isTrue trivial

/-- A closure that goes on uses the deleted reactor; one that has yet to wake up finds that it is gone. -/
def UsesFreed (owned : Owned (EdsReactor Member Resource)) : Prop :=
  owned.freed = true ∧
    ∃ thread ∈ owned.reactor.threads, thread.callback = false ∧ thread.pc ≠ .ended ∧ thread.pc ≠ .wake

/-- Where a closure can be. -/
def deferred : EdsPc → Bool
  | .wake => true
  | .send => true
  | .membership _ => true
  | .render _ _ => true
  | .startWrite => true
  | .failed => true
  | .maybeDone => true
  | .finish _ => true
  | .ended => true
  | _ => false

/-- Where a closure can be that has nothing left to do with the reactor, or only to call `Finish`. -/
def leaving : EdsPc → Bool
  | .wake => true
  | .finish _ => true
  | .ended => true
  | _ => false

/-- Where closures are; once the stream is finished all but the one that finishes it leave it alone. -/
structure Sheltered (r : EdsReactor Member Resource) : Prop where
  closures : ∀ (index : ℕ) (thread : Thread EdsPc), r.threads[index]? = some thread → thread.callback = false →
    deferred thread.pc = true
  finished : r.phase = .finished → ∀ (index : ℕ) (thread : Thread EdsPc), r.threads[index]? = some thread →
    thread.callback = false → leaving thread.pc = true

variable {assignment : String → List Member → Option Resource} {r r' : EdsReactor Member Resource} {index : ℕ}
  {callback : Bool} {pc pc' : EdsPc}

/-- A closure stays where closures can be. -/
theorem Advances.deferred (advances : Advances assignment r pc r' pc') (is_deferred : deferred pc = true) :
    deferred pc' = true := by
  cases advances <;> first | rfl | cases is_deferred

/-- Only `maybeDone` finishes a stream. -/
theorem Advances.finishes (advances : Advances assignment r pc r' pc') (finished : r'.phase = .finished) :
    r.phase = .finished ∨ pc = .maybeDone ∧ r.phase = .readsDone ∧ r.writing = false ∧ leaving pc' = true := by
  cases advances with
  | done reads_done idle => exact .inr ⟨rfl, reads_done, idle, rfl⟩
  | gaveUp | broke =>
    left
    cases phase_eq : r.phase <;> simp_all [Phase.close]
  | ending _ => cases finished
  | _ => exact .inl finished

/-- On a finished stream a closure that leaves it alone goes on to do so. -/
theorem Advances.leaving (advances : Advances assignment r pc r' pc') (finished : r.phase = .finished)
    (is_leaving : leaving pc = true) : leaving pc' = true := by
  cases advances with
  | roused _ _ is_open _ => cases is_open.symm.trans finished
  | woke _ _ | slept _ | finished | ended => rfl
  | _ => cases is_leaving

theorem Seated.idle_closure (seated : Seated r) (idle : r.writing = false)
    (found : r.threads[index]? = some ⟨pc, callback⟩) (is_deferred : EdsReactor.deferred pc = true) :
    pc = .maybeDone ∨ EdsReactor.leaving pc = true := by
  have no_writer : writes pc = false := by
    cases is_writer : writes pc with
    | false => rfl
    | true => cases idle.symm.trans (seated.sole found is_writer).2.2
  cases pc <;> simp_all [EdsReactor.deferred, EdsReactor.leaving, writes]

theorem Sheltered.run (sheltered : Sheltered r) (seated : Seated r)
    (found : r.threads[index]? = some ⟨pc, callback⟩) (advances : Advances assignment r pc r' pc')
    (clear : Act.Clear r (.run index)) :
    Sheltered { r' with threads := r.threads.set index ⟨pc', callback⟩ } := by
  refine ⟨?_, ?_⟩
  · intro other moved moved_at closure
    obtain ⟨_, rfl⟩ | ⟨_, old⟩ := set_cases moved_at
    · exact advances.deferred (sheltered.closures index _ found closure)
    · exact sheltered.closures other moved old closure
  · intro finished other moved moved_at closure
    obtain before | ⟨at_done, reads_done, idle, leaves⟩ := advances.finishes finished
    · obtain ⟨_, rfl⟩ | ⟨_, old⟩ := set_cases moved_at
      · exact advances.leaving before (sheltered.finished before index _ found closure)
      · exact sheltered.finished before other moved old closure
    · obtain ⟨_, rfl⟩ | ⟨elsewhere, old⟩ := set_cases moved_at
      · exact leaves
      · obtain waits | leaves := seated.idle_closure idle old (sheltered.closures other moved old closure)
        · have elsewhere_mem := List.mem_eraseIdx_iff_getElem?.mpr ⟨other, elsewhere, old⟩
          exact absurd waits (clear (by rw [found, Option.map_some, at_done]) reads_done idle
            moved elsewhere_mem closure)
        · exact leaves

/-- A thread starts: a callback, or a closure that has yet to wake up. -/
theorem Sheltered.spawned (sheltered : Sheltered r) (outside : callback = true ∨ pc = .wake)
    (phase_eq : r'.phase = r.phase) (threads_eq : r'.threads = r.threads ++ [⟨pc, callback⟩]) :
    Sheltered r' := by
  have old {other : ℕ} {moved : Thread EdsPc} (moved_at : r'.threads[other]? = some moved)
      (closure : moved.callback = false) : r.threads[other]? = some moved ∨ moved.pc = .wake := by
    rw [threads_eq] at moved_at
    rcases push_cases moved_at with old | ⟨-, rfl⟩
    · exact .inl old
    · obtain is_callback | at_wake := outside
      · cases is_callback.symm.trans closure
      · exact .inr at_wake
  refine ⟨?_, ?_⟩
  · intro other moved moved_at closure
    obtain before | at_wake := old moved_at closure
    · exact sheltered.closures other moved before closure
    · rw [at_wake]
      rfl
  · intro finished other moved moved_at closure
    obtain before | at_wake := old moved_at closure
    · exact sheltered.finished (phase_eq.symm.trans finished) other moved before closure
    · rw [at_wake]
      rfl

theorem Sheltered.steps (sheltered : Sheltered r) (seated : Seated r) {act : Act Member} (clear : act.Clear r)
    (steps : Steps assignment r act r') : Sheltered r' := by
  cases steps with
  | run found advances => exact sheltered.run seated found advances clear
  | readDone _ => exact sheltered.spawned (.inl rfl) rfl rfl
  | readsEnd _ => exact sheltered.spawned (.inl rfl) rfl rfl
  | writeDone _ => exact sheltered.spawned (.inl rfl) rfl rfl
  | publish => exact sheltered.spawned (.inr rfl) rfl rfl
  | rouse => exact sheltered.spawned (.inr rfl) rfl rfl
  | renderElsewhere _ => exact ⟨sheltered.closures, sheltered.finished⟩
  | setActive => exact ⟨sheltered.closures, sheltered.finished⟩

/-- When a sheltered reactor may be deleted no closure has anything left to do with it. -/
theorem Sheltered.not_used (sheltered : Sheltered r) (seated : Seated r) (may_free : r.mayFree = true) :
    ∀ thread ∈ r.threads, thread.callback = false → thread.pc = .ended ∨ thread.pc = .wake := by
  intro thread mem closure
  obtain ⟨index, found⟩ := List.getElem?_of_mem mem
  simp only [mayFree, Bool.and_eq_true, Bool.not_eq_eq_eq_not, Bool.not_true, List.isEmpty_eq_false_iff] at may_free
  have called := List.length_pos_of_ne_nil may_free.1.1.1
  have finishes := seated.finishes
  have one_finish := Bool.toNat_le r.phase.isFinished
  have finished : r.phase = .finished := by
    cases phase_eq : r.phase with
    | finished => rfl
    | _ =>
      rw [phase_eq] at finishes
      simp only [Phase.isFinished, Bool.toNat_false] at finishes
      omega
  have leaves := sheltered.finished finished index thread found closure
  have counted := le_count finishing found
  cases pc_eq : thread.pc with
  | wake => exact .inr rfl
  | ended => exact .inl rfl
  | finish status =>
    rw [pc_eq] at counted
    simp only [finishing, Bool.toNat_true] at counted
    omega
  | _ =>
    rw [pc_eq] at leaves
    cases leaves

end EdsReactor

/-! ## Both reactors -/

/-- The runs of a stream of the scheduler that deletes itself. -/
abbrev SendReactor.Lives {Msg : Type} (meets : SendReactor Msg → SendReactor.Act Msg → Prop) :
    Owned (SendReactor Msg) → List (Life (SendReactor.Act Msg)) → Prop :=
  Life.Reached (fun r => r = {}) (fun r act => act.perform r) SendReactor.mayFree meets

/-- The runs of an endpoint stream that deletes itself. -/
abbrev EdsReactor.Lives {Member Resource : Type} (assignment : String → List Member → Option Resource)
    (meets : EdsReactor Member Resource → EdsReactor.Act Member → Prop) :
    Owned (EdsReactor Member Resource) → List (Life (EdsReactor.Act Member)) → Prop :=
  Life.Reached (EdsReactor.Opens assignment) (fun r act => act.perform assignment r) EdsReactor.mayFree meets

theorem SendReactor.Lives.not_used {Msg : Type} {owned : Owned (SendReactor Msg)}
    {lives : List (Life (SendReactor.Act Msg))}
    (lived : SendReactor.Lives (fun r act => act.Clear r) owned lives) :
    ¬SendReactor.UsesFreed owned := by
  obtain ⟨⟨sound, sheltered⟩, freed⟩ :=
    Life.Reached.invariant (P := fun r => SendReactor.Sound r ∧ SendReactor.Sheltered r)
      (by
        rintro _ rfl
        exact ⟨SendReactor.sound_start, ⟨nofun, nofun⟩⟩)
      (fun r act r' ⟨sound, sheltered⟩ clear performed =>
        ⟨sound.perform performed, sheltered.perform sound clear performed⟩) lived
  rintro ⟨is_freed, thread, mem, closure, goes_on⟩
  exact goes_on (sheltered.not_used sound (freed is_freed) thread mem closure)

theorem EdsReactor.Lives.not_used {Member Resource : Type}
    {assignment : String → List Member → Option Resource}
    {owned : Owned (EdsReactor Member Resource)} {lives : List (Life (EdsReactor.Act Member))}
    (lived : EdsReactor.Lives assignment (fun r act => act.Clear r) owned lives) :
    ¬EdsReactor.UsesFreed owned := by
  obtain ⟨⟨seated, sheltered⟩, freed⟩ :=
    Life.Reached.invariant (P := fun r => EdsReactor.Seated r ∧ EdsReactor.Sheltered r)
      (by
        intro r opens
        have threads_eq : r.threads = [] := by rw [opens.fresh]
        refine ⟨opens.seated, ⟨?_, ?_⟩⟩
        · simp [threads_eq]
        · simp [threads_eq])
      (fun r act r' ⟨seated, sheltered⟩ clear performed =>
        have steps := EdsReactor.Act.perform_steps performed
        ⟨seated.steps steps, sheltered.steps seated clear steps⟩) lived
  rintro ⟨is_freed, thread, mem, closure, goes_on, not_wake⟩
  obtain at_end | at_wake := sheltered.not_used seated (freed is_freed) thread mem closure
  · exact goes_on at_end
  · exact not_wake at_wake

/-- In every run in which a thread that finds the stream done does so while no other closure stands before its
own `maybeDone`, no closure of either kind of reactor uses it after it was deleted. -/
theorem closures_spare_freed_reactors {Msg Member Resource : Type}
    (assignment : String → List Member → Option Resource) :
    (∀ (owned : Owned (SendReactor Msg)) (lives : List (Life (SendReactor.Act Msg))),
      SendReactor.Lives (fun r act => act.Clear r) owned lives → ¬SendReactor.UsesFreed owned) ∧
    (∀ (owned : Owned (EdsReactor Member Resource)) (lives : List (Life (EdsReactor.Act Member))),
      EdsReactor.Lives assignment (fun r act => act.Clear r) owned lives → ¬EdsReactor.UsesFreed owned) :=
  ⟨fun _ _ lived => lived.not_used, fun _ _ lived => lived.not_used⟩

theorem SendReactor.lives_start (meets : SendReactor ℕ → SendReactor.Act ℕ → Prop) :
    SendReactor.Lives meets { reactor := {} } [] :=
  .start ⟨rfl, rfl⟩

/-- A stream of the scheduler that is written to, ends and is deleted. -/
def SendReactor.shortLife : List (Life (SendReactor.Act ℕ)) :=
  [.step (.send 7), .step (.run 0), .step (.run 0), .step (.writeDone true), .step (.run 1), .step (.run 1),
    .step (.readsEnd .ok), .step (.run 2), .step (.run 2), .step (.run 2), .onDone]

/-- An endpoint stream that is woken, ends and is deleted. -/
def EdsReactor.shortLife : List (Life (EdsReactor.Act ℕ)) :=
  [.step (.readDone "" ["x"]), .step (.run 0), .step (.run 0), .step (.run 0), .step (.run 0), .step (.run 0),
    .step (.run 0), .step (.writeDone true), .step (.run 1), .step (.run 1), .step .rouse, .step (.run 2),
    .step .readsEnd, .step (.run 3), .step (.run 3), .step (.run 2), .step (.run 2), .step (.run 2), .onDone]

theorem closures_spare_freed_reactors_short_lives :
    (∃ owned, SendReactor.Lives (fun r act => act.Clear r) owned SendReactor.shortLife ∧ owned.freed = true ∧
      ¬SendReactor.UsesFreed owned) ∧
    ∃ owned : Owned (EdsReactor ℕ (String × List ℕ)),
      EdsReactor.Lives (fun system members => some (system, members)) (fun r act => act.Clear r) owned
        EdsReactor.shortLife ∧ owned.freed = true ∧ ¬EdsReactor.UsesFreed owned := by
  have send_ends : (Run.play (Life.play (fun (r : SendReactor ℕ) act => act.perform r) SendReactor.mayFree
      fun r act => act.Clear r) SendReactor.shortLife { reactor := {} }).map Owned.freed = some true := by
    decide +kernel
  have eds_ends : (Run.play (Life.play (fun (r : EdsReactor ℕ (String × List ℕ)) act =>
      act.perform (fun system members => some (system, members)) r) EdsReactor.mayFree
      fun r act => act.Clear r) EdsReactor.shortLife { reactor := {} }).map Owned.freed = some true := by
    decide +kernel
  obtain ⟨owned, played, freed⟩ := Option.map_eq_some_iff.mp send_ends
  obtain ⟨owned', played', freed'⟩ := Option.map_eq_some_iff.mp eds_ends
  have lived : SendReactor.Lives (fun r act => act.Clear r) owned SendReactor.shortLife :=
    Life.reached_play (SendReactor.lives_start _) played
  have lived' : EdsReactor.Lives (fun system members => some (system, members)) (fun r act => act.Clear r) owned'
      EdsReactor.shortLife := Life.reached_play (.start ⟨⟨rfl, nofun, nofun⟩, rfl⟩) played'
  have spared := @closures_spare_freed_reactors ℕ ℕ (String × List ℕ) fun system members => some (system, members)
  exact ⟨⟨owned, lived, freed, spared.1 owned _ lived⟩, ⟨owned', lived', freed', spared.2 owned' _ lived'⟩⟩

/-- The stream is cancelled before the deferred `writeNext` runs, and reads end before it calls `maybeDone`. -/
def SendReactor.cancelledWrite : List (Life (SendReactor.Act ℕ)) :=
  [.step (.send 7), .step .cancel, .step (.run 1), .step (.run 0), .step (.readsEnd .ok), .step (.run 2),
    .step (.run 2), .step (.run 2), .onDone]

/-- The peer takes back its names before the woken closure looks, and reads end before it calls `maybeDone`. -/
def EdsReactor.emptyWake : List (Life (EdsReactor.Act ℕ)) :=
  [.step (.readDone "" ["x"]), .step (.run 0), .step (.run 0), .step (.run 0), .step (.run 0), .step (.run 0),
    .step (.run 0), .step (.writeDone true), .step (.run 1), .step (.run 1), .step .rouse, .step (.run 2),
    .step (.readDone "" []), .step (.run 3), .step (.run 3), .step (.run 2), .step .readsEnd, .step (.run 4),
    .step (.run 4), .step (.run 4), .onDone]

/-- In either kind of reactor a closure that has cleared `writing` may find the reactor deleted. -/
theorem closures_use_freed_reactors :
    (∃ owned, SendReactor.Lives (fun _ _ => True) owned SendReactor.cancelledWrite ∧ SendReactor.UsesFreed owned) ∧
    ∃ owned : Owned (EdsReactor ℕ (String × List ℕ)),
      EdsReactor.Lives (fun system members => some (system, members)) (fun _ _ => True) owned EdsReactor.emptyWake ∧
      EdsReactor.UsesFreed owned := by
  have send_ends : (Run.play (Life.play (fun (r : SendReactor ℕ) act => act.perform r) SendReactor.mayFree
      fun _ _ => True) SendReactor.cancelledWrite { reactor := {} }).map
      (fun owned => (owned.freed, owned.reactor.threads[0]?)) = some (true, some ⟨.maybeDone, false⟩) := by
    decide +kernel
  have eds_ends : (Run.play (Life.play (fun (r : EdsReactor ℕ (String × List ℕ)) act =>
      act.perform (fun system members => some (system, members)) r) EdsReactor.mayFree
      fun _ _ => True) EdsReactor.emptyWake { reactor := {} }).map
      (fun owned => (owned.freed, owned.reactor.threads[2]?)) = some (true, some ⟨.maybeDone, false⟩) := by
    decide +kernel
  obtain ⟨owned, played, shape⟩ := Option.map_eq_some_iff.mp send_ends
  obtain ⟨owned', played', shape'⟩ := Option.map_eq_some_iff.mp eds_ends
  simp only [Prod.mk.injEq] at shape shape'
  refine ⟨⟨owned, Life.reached_play (SendReactor.lives_start _) played, shape.1, _,
    List.mem_of_getElem? shape.2, rfl, nofun⟩,
    ⟨owned', Life.reached_play (.start ⟨⟨rfl, nofun, nofun⟩, rfl⟩) played', shape'.1, _,
      List.mem_of_getElem? shape'.2, rfl, nofun, nofun⟩⟩

end NixGrpcStore.Reactor
