import NixGrpcStore.Lib.Crew
import NixGrpcStore.Lib.Run

/-!
# The outgoing queue of a stream

`SchedReactorBase` of `src/daemon/sched-reactor.hh` with its `SendQueue`.  The send closure only enqueues
and records that a write is due; the deferred call, and after it each completed write, takes the next
batch off the queue.  Every method is cut where it takes the lock of the queue or calls gRPC, and between
two such steps of one thread the others may do anything.  A read that brings messages hands them to the
dispatcher and starts the next read, which nothing here depends on.  Statuses are what `Finish` is given.
-/

namespace NixGrpcStore.Reactor

open Bool (toNat_false toNat_true)
open Crew

/-- The status a stream ends with. -/
inductive Status
  | ok
  | invalidArgument (text : String)
  deriving DecidableEq

/-- Messages that may wait: beyond it the peer is stuck. -/
def limit : ℕ := 2 ^ 16

/-- Messages per write. -/
def maxBatch : ℕ := 1024

/-- What a thread does next. -/
inductive SendPc
  /-- The locked part of `writeNext`. -/
  | writeNext
  /-- `StartWrite`. -/
  | startWrite
  /-- The locked part of `maybeDone`. -/
  | maybeDone
  /-- `Finish`. -/
  | finish
  /-- `finish`, after the stream was detached from the dispatcher. -/
  | ending (status : Status)
  /-- `OnWriteDone` of a write that failed. -/
  | writeFailed
  /-- `OnCancel`. -/
  | closing
  /-- Nothing. -/
  | ended
  deriving DecidableEq

/-- A stream, its queue, and what was done to it. -/
structure SendReactor (Msg : Type) where
  queue : List Msg := []
  /-- A write is outstanding, or about to be started. -/
  writing : Bool := false
  closed : Bool := false
  readsDone : Bool := false
  finished : Bool := false
  /-- The batch that is written. -/
  out : List Msg := []
  status : Status := .ok
  threads : List (Thread SendPc) := []
  /-- Writes that were started and have not completed. -/
  outstanding : ℕ := 0
  /-- A read was started and has not completed. -/
  reading : Bool := true
  /-- Messages for which the closure returned true. -/
  accepted : List Msg := []
  /-- The batches that were given to `StartWrite`. -/
  batches : List (List Msg) := []
  /-- What `Finish` was called with. -/
  finishes : List Status := []

namespace SendReactor

variable {Msg : Type}

/-- Take the next batch off the queue; the result is whether there is one. -/
def fill (r : SendReactor Msg) : Bool × SendReactor Msg :=
  let out := r.queue.take maxBatch
  (!out.isEmpty, { r with out, queue := r.queue.drop maxBatch })

/-- The next step of a thread, and where it is then. -/
def advance (r : SendReactor Msg) : SendPc → SendReactor Msg × SendPc
  | .writeNext =>
    if r.closed then ({ r with writing := false }, .maybeDone)
    else
      match r.fill with
      | (true, r) => (r, .startWrite)
      | (false, r) => ({ r with writing := false }, .maybeDone)
  | .startWrite => ({ r with outstanding := r.outstanding + 1, batches := r.batches ++ [r.out] }, .ended)
  | .maybeDone =>
    if r.readsDone && !r.writing && !r.finished then ({ r with finished := true }, .finish) else (r, .ended)
  | .finish => ({ r with finishes := r.finishes ++ [r.status] }, .ended)
  | .ending status => ({ r with status, closed := true, readsDone := true }, .maybeDone)
  | .writeFailed => ({ r with closed := true, writing := false }, .maybeDone)
  | .closing => ({ r with closed := true }, .ended)
  | .ended => (r, .ended)

/-- What may happen next. -/
inductive Act (Msg : Type)
  /-- The dispatcher calls the send closure. -/
  | send (msg : Msg)
  /-- A thread takes its next step. -/
  | run (index : ℕ)
  /-- A read failed, or its messages were refused. -/
  | readsEnd (status : Status)
  | writeDone (ok : Bool)
  | cancel

/-- Another thread starts. -/
def spawn (r : SendReactor Msg) (pc : SendPc) (callback : Bool) : SendReactor Msg :=
  { r with threads := r.threads ++ [{ pc, callback }] }

/-- A message is accepted. -/
def enqueue (r : SendReactor Msg) (msg : Msg) : SendReactor Msg :=
  { r with queue := r.queue ++ [msg], accepted := r.accepted ++ [msg] }

/-- The send closure; the result is what it returns. -/
def send (r : SendReactor Msg) (msg : Msg) : Bool × SendReactor Msg :=
  if r.closed || limit ≤ r.queue.length then
    (false, { r with closed := true })
  else
    (true, if r.writing then r.enqueue msg else spawn { r.enqueue msg with writing := true } .writeNext false)

/-- One step. -/
def Act.perform (r : SendReactor Msg) : Act Msg → Option (SendReactor Msg)
  | .send msg => some (r.send msg).2
  | .run index =>
    match r.threads[index]? with
    | some thread =>
      let (r', pc) := r.advance thread.pc
      some { r' with threads := r.threads.set index { thread with pc } }
    | none => none
  | .readsEnd status => if r.reading then some (spawn { r with reading := false } (.ending status) true) else none
  | .writeDone ok =>
    if 0 < r.outstanding then
      some (spawn { r with outstanding := r.outstanding - 1 } (if ok then .writeNext else .writeFailed) true)
    else
      none
  | .cancel => some (r.spawn .closing true)

/-- The runs of a stream. -/
abbrev Reached : SendReactor Msg → List (Act Msg) → Prop :=
  Run.Reached (fun r => r = {}) fun r acts r' => ∃ act, acts = [act] ∧ act.perform r = some r'

/-! ## Who writes -/

/-- A thread that has taken the writer's place. -/
def writes : SendPc → Bool
  | .writeNext => true
  | .startWrite => true
  | .writeFailed => true
  | _ => false

/-- A thread that has yet to see whether the stream is done. -/
def settles : SendPc → Bool
  | .maybeDone => true
  | _ => false

/-- A thread about to call `Finish`. -/
def finishing : SendPc → Bool
  | .finish => true
  | _ => false

/-- A thread about to call `StartWrite`. -/
def starting : SendPc → Bool
  | .startWrite => true
  | _ => false

/-- A thread in whose hands the end of reads is. -/
def ends : SendPc → Bool
  | .ending _ => true
  | _ => false

/-- The batch that was taken off the queue and not yet given to `StartWrite`. -/
def inHand (r : SendReactor Msg) : List Msg := if 0 < count starting r.threads then r.out else []

/-- Flags, threads and writes fit together. -/
structure Sound (r : SendReactor Msg) : Prop where
  writers : count writes r.threads + r.outstanding = r.writing.toNat
  finishes : count finishing r.threads + r.finishes.length = r.finished.toNat
  due : r.queue ≠ [] → r.closed = false → r.writing = true
  closed : r.readsDone = true → r.closed = true
  finished : r.finished = true → r.readsDone = true ∧ r.writing = false
  settling : r.readsDone = true → r.writing = false → r.finished = false → 0 < count settles r.threads
  reads : count ends r.threads + r.reading.toNat + r.readsDone.toNat = 1
  ledger : r.accepted = r.batches.flatten ++ r.inHand ++ r.queue

theorem fill_eq (r : SendReactor Msg) : r.queue = [] ∧ r.fill = (false, { r with out := [] }) ∨
    r.queue ≠ [] ∧ r.fill = (true, { r with out := r.queue.take maxBatch, queue := r.queue.drop maxBatch }) := by
  cases queue_eq : r.queue with
  | nil =>
    refine .inl ⟨rfl, ?_⟩
    simp [fill, queue_eq]
  | cons msg queue =>
    refine .inr ⟨List.cons_ne_nil _ _, ?_⟩
    simp [fill, queue_eq, maxBatch]

variable {r r' : SendReactor Msg} {index : ℕ} {thread : Thread SendPc} {callback : Bool}

section Calls

variable (sound : Sound r)
include sound

theorem Sound.enqueue (msg : Msg) (writing : r.writing = true) : Sound (r.enqueue msg) where
  writers := sound.writers
  finishes := sound.finishes
  due _ _ := writing
  closed := sound.closed
  finished := sound.finished
  settling := sound.settling
  reads := sound.reads
  ledger := by
    simp only [SendReactor.enqueue, sound.ledger, List.append_assoc]
    rfl

/-- The closure takes the writer's place for the call it records. -/
theorem Sound.kick (idle : r.writing = false) (is_open : r.closed = false) :
    Sound (spawn { r with writing := true } .writeNext false) where
  writers := by
    have writers := sound.writers
    simp only [spawn, count_append_single, writes, idle, toNat_false, toNat_true] at writers ⊢
    omega
  finishes := by simpa [spawn, SendReactor.finishing] using sound.finishes
  due _ _ := rfl
  closed := sound.closed
  finished done := by
    have ended := sound.closed (sound.finished done).1
    cases is_open.symm.trans ended
  settling _ writing := by cases writing
  reads := by simpa [spawn, SendReactor.ends] using sound.reads
  ledger := by simpa [spawn, SendReactor.inHand, starting] using sound.ledger

theorem Sound.send (msg : Msg) : Sound (r.send msg).2 := by
  unfold SendReactor.send
  split_ifs with refused writing
  · exact ⟨sound.writers, sound.finishes, nofun, fun _ => rfl, sound.finished, sound.settling,
      sound.reads, sound.ledger⟩
  · exact sound.enqueue msg writing
  · have idle : r.writing = false := Bool.eq_false_iff.mpr writing
    have is_open : r.closed = false := by
      cases is_closed : r.closed with
      | false => rfl
      | true => simp [is_closed] at refused
    have kicked := sound.kick idle is_open
    exact kicked.enqueue msg rfl

/-- A thread starts that neither writes nor has to do with the end of the stream. -/
theorem Sound.spawn {pc : SendPc} {callback : Bool} (outside : writes pc = false ∧
    SendReactor.finishing pc = false ∧ SendReactor.ends pc = false ∧ starting pc = false) :
    Sound (r.spawn pc callback) where
  writers := by simpa [SendReactor.spawn, outside] using sound.writers
  finishes := by simpa [SendReactor.spawn, outside] using sound.finishes
  due := sound.due
  closed := sound.closed
  finished := sound.finished
  settling done idle unfinished := (sound.settling done idle unfinished).trans_le (count_le_append _ _ _)
  reads := by simpa [SendReactor.spawn, outside] using sound.reads
  ledger := by simpa [SendReactor.spawn, SendReactor.inHand, outside] using sound.ledger

/-- A write completes: its callback has the writer's place. -/
theorem Sound.writeDone (outstanding : 0 < r.outstanding) {pc : SendPc}
    (is_writer : writes pc = true)
    (outside : SendReactor.finishing pc = false ∧ SendReactor.ends pc = false ∧ starting pc = false) :
    Sound (SendReactor.spawn { r with outstanding := r.outstanding - 1 } pc true) where
  writers := by
    have writers := sound.writers
    simp only [SendReactor.spawn, count_append_single, is_writer, toNat_true]
    omega
  finishes := by simpa [SendReactor.spawn, outside] using sound.finishes
  due := sound.due
  closed := sound.closed
  finished := sound.finished
  settling done idle unfinished := (sound.settling done idle unfinished).trans_le (count_le_append _ _ _)
  reads := by simpa [SendReactor.spawn, outside] using sound.reads
  ledger := by simpa [SendReactor.spawn, SendReactor.inHand, outside] using sound.ledger

/-- The last read completes. -/
theorem Sound.readsEnd (reading : r.reading = true) (status : Status) :
    Sound (SendReactor.spawn { r with reading := false } (.ending status) true) where
  writers := by simpa [SendReactor.spawn, writes] using sound.writers
  finishes := by simpa [SendReactor.spawn, SendReactor.finishing] using sound.finishes
  due := sound.due
  closed := sound.closed
  finished := sound.finished
  settling done idle unfinished := (sound.settling done idle unfinished).trans_le (count_le_append _ _ _)
  reads := by
    have reads := sound.reads
    simp only [SendReactor.spawn, count_append_single, SendReactor.ends, reading, toNat_true, toNat_false] at reads ⊢
    omega
  ledger := by simpa [SendReactor.spawn, SendReactor.inHand, starting] using sound.ledger

end Calls

theorem starting_le_writes (threads : List (Thread SendPc)) :
    count starting threads ≤ count writes threads := by
  apply count_mono
  intro pc starts
  cases pc <;> simp_all [starting, writes]

section Writer

variable (sound : Sound r) (found : r.threads[index]? = some thread)
  (is_writer : writes thread.pc = true)
include sound found is_writer

/-- The thread that has the writer's place is the only one, and no write is outstanding. -/
theorem Sound.sole :
    count writes r.threads = 1 ∧ r.outstanding = 0 ∧ r.writing = true := by
  have writers := sound.writers
  have counted := le_count writes found
  simp only [is_writer, toNat_true] at counted
  cases writing : r.writing with
  | false =>
    simp only [writing, toNat_false] at writers
    omega
  | true =>
    simp only [writing, toNat_true] at writers
    exact ⟨by omega, by omega, rfl⟩

/-- A writer that is not at `StartWrite` has no batch in hand. -/
theorem Sound.empty_handed (not_starting : starting thread.pc = false) :
    count starting r.threads = 0 := by
  obtain ⟨sole, _, _⟩ := sound.sole found is_writer
  have writers := count_left writes found { thread with pc := .ended } is_writer rfl
  have starters := count_kept starting found { thread with pc := .ended } not_starting.symm
  have le := starting_le_writes (r.threads.set index { thread with pc := .ended })
  omega

/-- The writer gives up its place. -/
theorem Sound.resign (outside : starting thread.pc = false ∧ SendReactor.finishing thread.pc = false ∧
      ends thread.pc = false ∧ settles thread.pc = false) {closed : Bool} (closes : r.closed = true → closed = true)
    (drained : r.queue = [] ∨ closed = true) (out : List Msg) :
    Sound { r with
      writing := false, closed, out
      threads := r.threads.set index { thread with pc := .maybeDone } } where
  writers := by
    obtain ⟨sole, no_write, _⟩ := sound.sole found is_writer
    have writers := count_left writes found { thread with pc := .maybeDone } is_writer rfl
    simp only [toNat_false]
    omega
  finishes := by rw [count_kept SendReactor.finishing found { thread with pc := .maybeDone }
    outside.2.1.symm, sound.finishes]
  due waits is_open := by
    obtain none_waits | is_closed := drained
    · exact absurd none_waits waits
    · cases is_open.symm.trans is_closed
  closed done := closes (sound.closed done)
  finished done := by
    cases (sound.finished done).2.symm.trans (sound.sole found is_writer).2.2
  settling _ _ _ := by
    rw [count_entered settles found { thread with pc := .maybeDone } outside.2.2.2 rfl]
    exact Nat.succ_pos _
  reads := by rw [count_kept ends found { thread with pc := .maybeDone } outside.2.2.1.symm, sound.reads]
  ledger := by
    have empty := sound.empty_handed found is_writer outside.1
    have ledger := sound.ledger
    rw [inHand, empty] at ledger
    rw [inHand, count_kept starting found { thread with pc := .maybeDone } outside.1.symm, empty]
    exact ledger

end Writer

section Threads

variable (sound : Sound r)
include sound

/-- The writer takes a batch in hand. -/
theorem Sound.pickUp (found : r.threads[index]? = some ⟨.writeNext, callback⟩) (batch : ℕ) :
    Sound { r with
      out := r.queue.take batch, queue := r.queue.drop batch
      threads := r.threads.set index ⟨.startWrite, callback⟩ } where
  writers := by rw [count_kept writes found ⟨.startWrite, callback⟩ rfl, sound.writers]
  finishes := by rw [count_kept SendReactor.finishing found ⟨.startWrite, callback⟩ rfl, sound.finishes]
  due _ _ := (sound.sole found rfl).2.2
  closed := sound.closed
  finished := sound.finished
  settling done idle unfinished := by
    rw [count_kept settles found ⟨.startWrite, callback⟩ rfl]
    exact sound.settling done idle unfinished
  reads := by rw [count_kept ends found ⟨.startWrite, callback⟩ rfl, sound.reads]
  ledger := by
    have empty := sound.empty_handed found rfl rfl
    have ledger := sound.ledger
    rw [inHand, empty] at ledger
    simpa [inHand, count_entered starting found ⟨.startWrite, callback⟩ rfl rfl] using ledger

/-- The batch in hand is given to gRPC. -/
theorem Sound.startWrite (found : r.threads[index]? = some ⟨.startWrite, callback⟩) :
    Sound { r with
      outstanding := r.outstanding + 1, batches := r.batches ++ [r.out]
      threads := r.threads.set index ⟨.ended, callback⟩ } where
  writers := by
    have writers := sound.writers
    have left := count_left writes found ⟨.ended, callback⟩ rfl rfl
    simp only
    omega
  finishes := by rw [count_kept SendReactor.finishing found ⟨.ended, callback⟩ rfl, sound.finishes]
  due := sound.due
  closed := sound.closed
  finished := sound.finished
  settling done idle unfinished := by
    rw [count_kept settles found ⟨.ended, callback⟩ rfl]
    exact sound.settling done idle unfinished
  reads := by rw [count_kept ends found ⟨.ended, callback⟩ rfl, sound.reads]
  ledger := by
    have sole := (sound.sole found rfl).1
    have starters := count_left starting found ⟨.ended, callback⟩ rfl rfl
    have le := starting_le_writes r.threads
    have none_starts : count starting (r.threads.set index ⟨.ended, callback⟩) = 0 := by omega
    have one_starts : 0 < count starting r.threads := by omega
    have ledger := sound.ledger
    rw [inHand, if_pos one_starts] at ledger
    simpa [inHand, none_starts] using ledger

theorem Sound.maybeDone (found : r.threads[index]? = some ⟨.maybeDone, callback⟩) :
    Sound { (r.advance .maybeDone).1 with threads := r.threads.set index ⟨(r.advance .maybeDone).2, callback⟩ } := by
  simp only [advance]
  split_ifs with done
  · simp only [Bool.and_eq_true, Bool.not_eq_eq_eq_not, Bool.not_true] at done
    refine ⟨?_, ?_, sound.due, sound.closed, fun _ => done.1, nofun, ?_, ?_⟩
    · rw [count_kept writes found ⟨.finish, callback⟩ rfl, sound.writers]
    · have finishes := sound.finishes
      rw [done.2, toNat_false] at finishes
      simp only [count_entered SendReactor.finishing found ⟨.finish, callback⟩ rfl rfl, toNat_true]
      omega
    · rw [count_kept ends found ⟨.finish, callback⟩ rfl, sound.reads]
    · rw [inHand, count_kept starting found ⟨.finish, callback⟩ rfl]
      exact sound.ledger
  · refine ⟨?_, ?_, sound.due, sound.closed, sound.finished, ?_, ?_, ?_⟩
    · rw [count_kept writes found ⟨.ended, callback⟩ rfl, sound.writers]
    · rw [count_kept SendReactor.finishing found ⟨.ended, callback⟩ rfl, sound.finishes]
    · intro reads_done idle unfinished
      simp only at reads_done idle unfinished
      simp [reads_done, idle, unfinished] at done
    · rw [count_kept ends found ⟨.ended, callback⟩ rfl, sound.reads]
    · rw [inHand, count_kept starting found ⟨.ended, callback⟩ rfl]
      exact sound.ledger

theorem Sound.finish (found : r.threads[index]? = some ⟨.finish, callback⟩) :
    Sound { r with finishes := r.finishes ++ [r.status], threads := r.threads.set index ⟨.ended, callback⟩ } where
  writers := by rw [count_kept writes found ⟨.ended, callback⟩ rfl, sound.writers]
  finishes := by
    have finishes := sound.finishes
    have left := count_left SendReactor.finishing found ⟨.ended, callback⟩ rfl rfl
    simp only [List.length_append, List.length_singleton]
    omega
  due := sound.due
  closed := sound.closed
  finished := sound.finished
  settling done idle unfinished := by
    rw [count_kept settles found ⟨.ended, callback⟩ rfl]
    exact sound.settling done idle unfinished
  reads := by rw [count_kept ends found ⟨.ended, callback⟩ rfl, sound.reads]
  ledger := by
    rw [inHand, count_kept starting found ⟨.ended, callback⟩ rfl]
    exact sound.ledger

/-- Reads have ended. -/
theorem Sound.ending {status : Status}
    (found : r.threads[index]? = some ⟨.ending status, callback⟩) :
    Sound { r with
      status, closed := true, readsDone := true
      threads := r.threads.set index ⟨.maybeDone, callback⟩ } where
  writers := by rw [count_kept writes found ⟨.maybeDone, callback⟩ rfl, sound.writers]
  finishes := by rw [count_kept SendReactor.finishing found ⟨.maybeDone, callback⟩ rfl, sound.finishes]
  due _ is_open := by cases is_open
  closed _ := rfl
  finished done := ⟨rfl, (sound.finished done).2⟩
  settling _ _ _ := by
    rw [count_entered settles found ⟨.maybeDone, callback⟩ rfl rfl]
    exact Nat.succ_pos _
  reads := by
    have reads := sound.reads
    have left := count_left ends found ⟨.maybeDone, callback⟩ rfl rfl
    simp only [toNat_true]
    omega
  ledger := by
    rw [inHand, count_kept starting found ⟨.maybeDone, callback⟩ rfl]
    exact sound.ledger

theorem Sound.closing (found : r.threads[index]? = some ⟨.closing, callback⟩) :
    Sound { r with closed := true, threads := r.threads.set index ⟨.ended, callback⟩ } where
  writers := by rw [count_kept writes found ⟨.ended, callback⟩ rfl, sound.writers]
  finishes := by rw [count_kept SendReactor.finishing found ⟨.ended, callback⟩ rfl, sound.finishes]
  due _ is_open := by cases is_open
  closed _ := rfl
  finished := sound.finished
  settling done idle unfinished := by
    rw [count_kept settles found ⟨.ended, callback⟩ rfl]
    exact sound.settling done idle unfinished
  reads := by rw [count_kept ends found ⟨.ended, callback⟩ rfl, sound.reads]
  ledger := by
    rw [inHand, count_kept starting found ⟨.ended, callback⟩ rfl]
    exact sound.ledger

/-- A thread takes its next step. -/
theorem Sound.run (found : r.threads[index]? = some thread) :
    Sound { (r.advance thread.pc).1 with
      threads := r.threads.set index { thread with pc := (r.advance thread.pc).2 } } := by
  obtain ⟨pc, callback⟩ := thread
  cases pc with
  | writeNext =>
    simp only [advance]
    split_ifs with is_closed
    · exact sound.resign found rfl ⟨rfl, rfl, rfl, rfl⟩ (fun closed => closed) (.inr is_closed) r.out
    · obtain ⟨drained, filled⟩ | ⟨waits, filled⟩ := r.fill_eq
      · rw [filled]
        exact sound.resign found rfl ⟨rfl, rfl, rfl, rfl⟩ (fun closed => closed) (.inl drained) []
      · rw [filled]
        exact sound.pickUp found maxBatch
  | startWrite => exact sound.startWrite found
  | maybeDone => exact sound.maybeDone found
  | finish => exact sound.finish found
  | ending status => exact sound.ending found
  | writeFailed => exact sound.resign found rfl ⟨rfl, rfl, rfl, rfl⟩ (fun _ => rfl) (.inr rfl) r.out
  | closing => exact sound.closing found
  | ended =>
    simp only [advance, Tally.set_found found]
    exact sound

end Threads

theorem sound_start : Sound ({} : SendReactor Msg) where
  writers := rfl
  finishes := rfl
  due waits := absurd rfl waits
  closed := nofun
  finished := nofun
  settling := nofun
  reads := rfl
  ledger := rfl

/-- One step keeps flags, threads and writes in order. -/
theorem Sound.perform (sound : Sound r) {act : Act Msg} (performed : act.perform r = some r') : Sound r' := by
  cases act with
  | send msg =>
    cases performed
    exact sound.send msg
  | run index =>
    simp only [Act.perform] at performed
    split at performed
    case h_1 thread found =>
      cases performed
      exact sound.run found
    case h_2 => cases performed
  | readsEnd status =>
    simp only [Act.perform] at performed
    split_ifs at performed with reading
    cases performed
    exact sound.readsEnd reading status
  | writeDone ok =>
    by_cases outstanding : 0 < r.outstanding
    · rw [Act.perform, if_pos outstanding] at performed
      cases performed
      cases ok with
      | true => exact sound.writeDone outstanding rfl ⟨rfl, rfl, rfl⟩
      | false => exact sound.writeDone outstanding rfl ⟨rfl, rfl, rfl⟩
    · rw [Act.perform, if_neg outstanding] at performed
      cases performed
  | cancel =>
    cases performed
    exact sound.spawn ⟨rfl, rfl, rfl, rfl⟩

theorem Reached.sound {acts : List (Act Msg)} (reached : Reached r acts) : Sound r := by
  apply Run.Reached.state_invariant (P := Sound) _ _ reached
  · rintro _ rfl
    exact sound_start
  · rintro r acts r' sound ⟨act, _, performed⟩
    exact sound.perform performed

/-! ## What the peer sees -/

/-- No read is outstanding, nor a write, and no thread has anything to do but to note a cancellation. -/
structure Quiet (r : SendReactor Msg) : Prop where
  reading : r.reading = false
  outstanding : r.outstanding = 0
  threads : ∀ thread ∈ r.threads, thread.pc = .ended ∨ thread.pc = .closing

/-- Threads that have nothing to do are at no point of a kind that excludes them. -/
theorem Quiet.none_at (quiet : Quiet r) {kind : SendPc → Bool} (idle : kind .ended = false)
    (closing : kind .closing = false) : count kind r.threads = 0 := by
  apply count_eq_zero
  intro thread mem
  obtain at_end | at_close := quiet.threads thread mem
  · rw [at_end, idle]
  · rw [at_close, closing]

theorem Sound.finished_of_quiet (sound : Sound r) (quiet : Quiet r) : r.finishes.length = 1 := by
  have reads := sound.reads
  have writers := sound.writers
  have finishes := sound.finishes
  rw [quiet.none_at rfl rfl, quiet.reading, toNat_false] at reads
  rw [quiet.none_at rfl rfl, quiet.outstanding] at writers
  rw [quiet.none_at rfl rfl] at finishes
  have reads_done : r.readsDone = true := Bool.toNat_eq_one.mp (by omega)
  have idle : r.writing = false := Bool.toNat_eq_zero.mp (by omega)
  cases finished : r.finished with
  | false =>
    have settling := sound.settling reads_done idle finished
    rw [quiet.none_at rfl rfl] at settling
    omega
  | true =>
    rw [finished, toNat_true] at finishes
    omega

/-- `Finish` is called, or was, only when reads have ended and nobody writes or is about to. -/
theorem Sound.finish_last (sound : Sound r)
    (finishes : 0 < count SendReactor.finishing r.threads + r.finishes.length) :
    r.readsDone = true ∧ r.outstanding = 0 ∧ count writes r.threads = 0 := by
  have balance := sound.finishes
  have finished : r.finished = true := by
    cases finished : r.finished with
    | true => rfl
    | false =>
      rw [finished, toNat_false] at balance
      omega
  obtain ⟨reads_done, idle⟩ := sound.finished finished
  have writers := sound.writers
  rw [idle, toNat_false] at writers
  exact ⟨reads_done, by omega, by omega⟩

/-- In every run of a stream: the messages the closure accepted are, in order, those of the batches given
to `StartWrite`, those a thread has taken out for the next one, and those in the queue; at most one write is
outstanding; a message that waits in an open queue has its writer; `Finish` is called at most once, after
reads have ended and while nobody writes; and it has been called when all is quiet. -/
theorem stream_keeps_order {acts : List (Act Msg)} (reached : Reached r acts) :
    r.accepted = r.batches.flatten ++ r.inHand ++ r.queue ∧ r.batches.flatten <+: r.accepted ∧
    r.outstanding ≤ 1 ∧
    (r.queue ≠ [] → r.closed = false → r.writing = true ∧ count writes r.threads + r.outstanding = 1) ∧
    r.finishes.length ≤ 1 ∧
    (0 < count SendReactor.finishing r.threads + r.finishes.length →
      r.readsDone = true ∧ r.outstanding = 0 ∧ count writes r.threads = 0) ∧
    (Quiet r → r.finishes.length = 1) := by
  have sound := reached.sound
  have writers := sound.writers
  have finishes := sound.finishes
  have one_writes := Bool.toNat_le r.writing
  have one_finish := Bool.toNat_le r.finished
  refine ⟨sound.ledger, ?_, by omega, ?_, by omega, sound.finish_last, sound.finished_of_quiet⟩
  · rw [sound.ledger, List.append_assoc]
    exact List.prefix_append _ _
  · intro waits is_open
    have writing := sound.due waits is_open
    rw [writing, toNat_true] at writers
    exact ⟨writing, writers⟩

/-- Two messages go out in two batches, and the stream ends. -/
theorem stream_keeps_order_two_sends : ∃ (r : SendReactor ℕ) (acts : List (Act ℕ)), Reached r acts ∧
    r.accepted = [7, 8] ∧ r.batches = [[7], [8]] ∧ Quiet r ∧ r.finishes.length = 1 := by
  have ends : (Run.play (fun r act => Act.perform r act)
      [.send 7, .run 0, .run 0, .send 8, .writeDone true, .run 1, .run 1, .writeDone true, .run 2, .run 2,
        .readsEnd .ok, .run 3, .run 3, .run 3] ({} : SendReactor ℕ)).map
      (fun r => (r.accepted, r.batches, r.reading, r.outstanding, r.threads.map Thread.pc)) =
        some ([7, 8], [[7], [8]], false, 0, [.ended, .ended, .ended, .ended]) := by
    decide +kernel
  obtain ⟨r, played, shape⟩ := Option.map_eq_some_iff.mp ends
  simp only [Prod.mk.injEq] at shape
  obtain ⟨accepted_eq, batches_eq, reading_eq, outstanding_eq, threads_eq⟩ := shape
  have reached : Reached r _ := Run.Reached.play (.start rfl) played
  have quiet : Quiet r := by
    refine ⟨reading_eq, outstanding_eq, fun thread mem => ?_⟩
    have pc_mem := List.mem_map_of_mem (f := Thread.pc) mem
    rw [threads_eq] at pc_mem
    exact .inl (by simpa using pc_mem)
  obtain ⟨-, -, -, -, -, -, called⟩ := stream_keeps_order reached
  exact ⟨r, _, reached, accepted_eq, batches_eq, quiet, called quiet⟩

end SendReactor

end NixGrpcStore.Reactor
