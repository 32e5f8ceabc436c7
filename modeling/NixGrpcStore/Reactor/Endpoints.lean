import NixGrpcStore.Reactor.Queue

/-!
# The endpoint stream

`EdsReactor` of `src/daemon/eds.cc`, the cache of `EdsService::render` and the lists the dispatcher
publishes.  Requests name the systems a peer wants; a writer is claimed under the lock, renders the list of
members outside of it and writes one response, and whatever changed in between sets `dirty` again.  Every
method is cut where it takes a lock or calls gRPC or the dispatcher, and between two such steps of one
thread the others may do anything.  A list is known by its number, as the source knows it by its address.
How a list of members becomes a resource is a parameter.
-/

namespace NixGrpcStore.Reactor

open Bool (and_eq_true toNat_eq_zero toNat_false toNat_le toNat_true)
open List (mem_append mem_singleton prefix_append prefix_refl)
open Crew

/-- How far a stream has come. -/
inductive Phase
  | opened
  | closed
  | readsDone
  | finished
  deriving DecidableEq

namespace Phase

/-- `close`: at least closed. -/
def close : Phase → Phase
  | .opened => .closed
  | phase => phase

/-- Reads have ended. -/
def readsOver : Phase → Bool
  | .readsDone => true
  | .finished => true
  | _ => false

/-- `Finish` was called, or is about to be. -/
def isFinished : Phase → Bool
  | .finished => true
  | _ => false

end Phase

/-- The type of the resources that are served. -/
def assignmentType : String := "type.googleapis.com/envoy.config.endpoint.v3.ClusterLoadAssignment"

def maxNames : ℕ := 32

def maxNameLen : ℕ := 64

/-- Insertion into an ordered set. -/
def insertName (names : List String) (name : String) : List String :=
  if name ∈ names then names else names.orderedInsert (· ≤ ·) name

/-- The names of a request, as an ordered set. -/
def collectNames (resourceNames : List String) : Option (List String) :=
  if maxNames < resourceNames.length then none
  else if resourceNames.any fun name => name.isEmpty || maxNameLen < name.utf8ByteSize then none
  else some (resourceNames.foldl insertName [])

/-- One response, with the names and the list it was rendered for. -/
structure Response (Resource : Type) where
  resources : List Resource := []
  version : ℕ := 0
  names : List String := []
  members : ℕ := 0
  deriving DecidableEq

/-- What a thread does next. -/
inductive EdsPc
  /-- The locked part of `OnReadDone`. -/
  | request (want : List String)
  /-- `StartRead`, and then `send` if a writer was claimed. -/
  | rearm (run : Bool)
  /-- The locked part of `send`. -/
  | send
  /-- `Dispatcher::membership`. -/
  | membership (want : List String)
  /-- `EdsService::render`. -/
  | render (want : List String) (members : ℕ)
  /-- `StartWrite`. -/
  | startWrite
  /-- `send` after a resource could not be made. -/
  | failed
  /-- The locked part of `OnWriteDone`. -/
  | writeDone
  /-- `OnWriteDone` of a write that failed. -/
  | writeFailed
  /-- The locked part of `maybeDone`. -/
  | maybeDone
  /-- `Finish`. -/
  | finish (status : Status)
  /-- The locked part of `finish`. -/
  | ending (status : Status)
  /-- The closure of `watchMembership`. -/
  | wake
  /-- Nothing. -/
  | ended
  deriving DecidableEq

/-- A stream, the service's cache, the published lists, and what was done to the stream. -/
structure EdsReactor (Member Resource : Type) where
  names : List String := []
  status : Status := .ok
  dirty : Bool := false
  /-- A write is outstanding, or about to be started. -/
  writing : Bool := false
  phase : Phase := .opened
  out : Response Resource := {}
  version : ℕ := 0
  /-- The service serves. -/
  active : Bool := true
  threads : List (Thread EdsPc) := []
  /-- Writes that were started and have not completed. -/
  outstanding : ℕ := 0
  /-- A read was started and has not completed. -/
  reading : Bool := true
  /-- Every list that was published, oldest first. -/
  lists : List (String → List Member) := [fun _ => []]
  renderedFrom : Option ℕ := none
  rendered : String → Option Resource := fun _ => none
  /-- The list that was the newest when a wake last set `dirty`. -/
  woken : ℕ := 0
  /-- The responses that were given to `StartWrite`. -/
  responses : List (Response Resource) := []
  /-- What `Finish` was called with. -/
  finishes : List Status := []

namespace EdsReactor

variable {Member Resource : Type} (assignment : String → List Member → Option Resource)

/-- The resources of a list: one for each system that has members and can be rendered. -/
def renderedOf (list : String → List Member) (system : String) : Option Resource :=
  if (list system).isEmpty then none else assignment system (list system)

/-- The resources of a response. -/
def resourcesOf (shared : String → Option Resource) (want : List String) : Option (List Resource) :=
  want.mapM fun system => (shared system).or (assignment system [])

/-- A published list. -/
def listAt (r : EdsReactor Member Resource) (members : ℕ) : String → List Member := r.lists.getD members fun _ => []

/-- The newest list. -/
def newest (r : EdsReactor Member Resource) : ℕ := r.lists.length - 1

/-- `EdsService::render`: the resources of a list, made anew unless the last ones were of that list. -/
def render (r : EdsReactor Member Resource) (members : ℕ) : (String → Option Resource) × EdsReactor Member Resource :=
  if r.renderedFrom = some members then (r.rendered, r)
  else
    let rendered := renderedOf assignment (r.listAt members)
    (rendered, { r with renderedFrom := some members, rendered })

/-- Whether the caller is to write. -/
def claimWriter (r : EdsReactor Member Resource) : Bool × EdsReactor Member Resource :=
  if r.writing || r.phase ≠ .opened || r.names.isEmpty then (false, r) else (true, { r with writing := true })

/-- The next step of a thread, and where it is then. -/
def advance (r : EdsReactor Member Resource) : EdsPc → EdsReactor Member Resource × EdsPc
  | .request want =>
    if want ≠ r.names then
      let (run, r) := claimWriter { r with names := want, dirty := true }
      (r, .rearm run)
    else (r, .rearm false)
  | .rearm run => ({ r with reading := true }, if run then .send else .ended)
  | .send =>
    if r.phase ≠ .opened || !r.dirty || r.names.isEmpty then ({ r with writing := false }, .maybeDone)
    else ({ r with dirty := false }, .membership r.names)
  | .membership want => (r, .render want r.newest)
  | .render want members =>
    let (shared, r) := r.render assignment members
    match resourcesOf assignment shared want with
    | some resources =>
      let version := r.version + 1
      ({ r with out := { resources, version, names := want, members }, version }, .startWrite)
    | none => (r, .failed)
  | .startWrite => ({ r with outstanding := r.outstanding + 1, responses := r.responses ++ [r.out] }, .ended)
  | .failed => ({ r with phase := r.phase.close, writing := false }, .maybeDone)
  | .writeDone =>
    if r.dirty && r.phase = .opened then ({ r with writing := true }, .send)
    else ({ r with writing := false }, .maybeDone)
  | .writeFailed => ({ r with phase := r.phase.close, writing := false }, .maybeDone)
  | .maybeDone =>
    if r.phase = .readsDone && !r.writing then ({ r with phase := .finished }, .finish r.status) else (r, .ended)
  | .finish status => ({ r with finishes := r.finishes ++ [status] }, .ended)
  | .ending status =>
    if r.phase.readsOver then (r, .maybeDone) else ({ r with status, phase := .readsDone }, .maybeDone)
  | .wake =>
    if r.active then
      let (run, r) := claimWriter { r with dirty := true, woken := r.newest }
      (r, if run then .send else .ended)
    else (r, .ended)
  | .ended => (r, .ended)

/-- What `OnReadDone` does with a request. -/
def received (typeUrl : String) (resourceNames : List String) : EdsPc :=
  if typeUrl ≠ "" && typeUrl ≠ assignmentType then .ending (.invalidArgument "only ClusterLoadAssignment is served")
  else
    match collectNames resourceNames with
    | none => .ending (.invalidArgument "bad resource_names")
    | some want => .request want

/-- What may happen next. -/
inductive Act (Member : Type)
  /-- A thread takes its next step. -/
  | run (index : ℕ)
  | readDone (typeUrl : String) (resourceNames : List String)
  /-- A read failed. -/
  | readsEnd
  | writeDone (ok : Bool)
  /-- The dispatcher publishes a list and then wakes the watchers. -/
  | publish (list : String → List Member)
  /-- The dispatcher wakes the watchers. -/
  | rouse
  /-- Another stream renders a list. -/
  | renderElsewhere (members : ℕ)
  | setActive (active : Bool)

/-- Another thread starts. -/
def spawn (r : EdsReactor Member Resource) (pc : EdsPc) (callback : Bool) : EdsReactor Member Resource :=
  { r with threads := r.threads ++ [{ pc, callback }] }

/-- One step. -/
def Act.perform (r : EdsReactor Member Resource) : Act Member → Option (EdsReactor Member Resource)
  | .run index =>
    match r.threads[index]? with
    | some thread =>
      let (r', pc) := r.advance assignment thread.pc
      some { r' with threads := r.threads.set index { thread with pc } }
    | none => none
  | .readDone typeUrl resourceNames =>
    if r.reading then some (spawn { r with reading := false } (received typeUrl resourceNames) true) else none
  | .readsEnd => if r.reading then some (spawn { r with reading := false } (.ending .ok) true) else none
  | .writeDone ok =>
    if 0 < r.outstanding then
      some (spawn { r with outstanding := r.outstanding - 1 } (if ok then .writeDone else .writeFailed) true)
    else
      none
  | .publish list => some (spawn { r with lists := r.lists ++ [list] } .wake false)
  | .rouse => some (r.spawn .wake false)
  | .renderElsewhere members => if members < r.lists.length then some (r.render assignment members).2 else none
  | .setActive active => some { r with active }

/-- The service's cache holds what is made of the list it names. -/
def Cached (r : EdsReactor Member Resource) : Prop :=
  ∀ members, r.renderedFrom = some members →
    members < r.lists.length ∧ r.rendered = renderedOf assignment (r.listAt members)

/-- A stream that was just opened: lists were published before, and others had them rendered. -/
structure Opens (r : EdsReactor Member Resource) : Prop where
  fresh : r = { lists := r.lists, renderedFrom := r.renderedFrom, rendered := r.rendered, woken := r.newest }
  lists : r.lists ≠ []
  cached : Cached assignment r

/-- The runs of a stream. -/
abbrev Reached : EdsReactor Member Resource → List (Act Member) → Prop :=
  Run.Reached (Opens assignment) fun r acts r' => ∃ act, acts = [act] ∧ act.perform assignment r = some r'

/-! ## What a step can do -/

section Steps

variable {assignment}

theorem claimWriter_cases (r : EdsReactor Member Resource) :
    (r.writing = true ∨ r.phase ≠ .opened ∨ r.names = []) ∧ r.claimWriter = (false, r) ∨
    r.writing = false ∧ r.phase = .opened ∧ r.names ≠ [] ∧ r.claimWriter = (true, { r with writing := true }) := by
  by_cases kept : r.writing || r.phase ≠ .opened || r.names.isEmpty
  · refine .inl ⟨?_, by rw [claimWriter, if_pos kept]⟩
    simpa [or_assoc] using kept
  · refine .inr ?_
    rw [claimWriter, if_neg kept]
    simpa [and_assoc] using kept

/-- The cache is all that rendering changes. -/
theorem render_snd (r : EdsReactor Member Resource) (members : ℕ) : (r.render assignment members).2 =
    { r with renderedFrom := some members, rendered := (r.render assignment members).1 } := by
  by_cases same : r.renderedFrom = some members
  · rw [render, if_pos same, ← same]
  · rw [render, if_neg same]

/-- The steps of a thread. -/
inductive Advances (assignment : String → List Member → Option Resource) (r : EdsReactor Member Resource) :
    EdsPc → EdsReactor Member Resource → EdsPc → Prop
  | renamed {want : List String} (changed : want ≠ r.names)
      (kept : r.writing = true ∨ r.phase ≠ .opened ∨ want = []) :
      Advances assignment r (.request want) { r with names := want, dirty := true } (.rearm false)
  | claimed {want : List String} (changed : want ≠ r.names) (idle : r.writing = false) (is_open : r.phase = .opened)
      (wanted : want ≠ []) :
      Advances assignment r (.request want) { r with names := want, dirty := true, writing := true } (.rearm true)
  | repeated : Advances assignment r (.request r.names) r (.rearm false)
  | rearmed {run : Bool} :
      Advances assignment r (.rearm run) { r with reading := true } (if run then .send else .ended)
  | stopped (pointless : r.phase ≠ .opened ∨ r.dirty = false ∨ r.names = []) :
      Advances assignment r .send { r with writing := false } .maybeDone
  | began (is_open : r.phase = .opened) (dirty : r.dirty = true) (wanted : r.names ≠ []) :
      Advances assignment r .send { r with dirty := false } (.membership r.names)
  | looked {want : List String} : Advances assignment r (.membership want) r (.render want r.newest)
  | rendered {want : List String} {members : ℕ} {resources : List Resource}
      (made : resourcesOf assignment (r.render assignment members).1 want = some resources) :
      Advances assignment r (.render want members)
        { r with
          renderedFrom := some members, rendered := (r.render assignment members).1
          out := { resources, version := r.version + 1, names := want, members }, version := r.version + 1 }
        .startWrite
  | unrendered {want : List String} {members : ℕ}
      (not_made : resourcesOf assignment (r.render assignment members).1 want = none) :
      Advances assignment r (.render want members)
        { r with renderedFrom := some members, rendered := (r.render assignment members).1 } .failed
  | started :
      Advances assignment r .startWrite
        { r with outstanding := r.outstanding + 1, responses := r.responses ++ [r.out] } .ended
  | gaveUp : Advances assignment r .failed { r with phase := r.phase.close, writing := false } .maybeDone
  | again (dirty : r.dirty = true) (is_open : r.phase = .opened) :
      Advances assignment r .writeDone { r with writing := true } .send
  | wrote (settled : r.dirty = false ∨ r.phase ≠ .opened) :
      Advances assignment r .writeDone { r with writing := false } .maybeDone
  | broke : Advances assignment r .writeFailed { r with phase := r.phase.close, writing := false } .maybeDone
  | done (reads_done : r.phase = .readsDone) (idle : r.writing = false) :
      Advances assignment r .maybeDone { r with phase := .finished } (.finish r.status)
  | undone (not_done : ¬(r.phase = .readsDone ∧ r.writing = false)) : Advances assignment r .maybeDone r .ended
  | finished {status : Status} :
      Advances assignment r (.finish status) { r with finishes := r.finishes ++ [status] } .ended
  | ending {status : Status} (not_over : r.phase.readsOver = false) :
      Advances assignment r (.ending status) { r with status, phase := .readsDone } .maybeDone
  | endedBefore {status : Status} (is_over : r.phase.readsOver = true) :
      Advances assignment r (.ending status) r .maybeDone
  | woke (active : r.active = true) (kept : r.writing = true ∨ r.phase ≠ .opened ∨ r.names = []) :
      Advances assignment r .wake { r with dirty := true, woken := r.newest } .ended
  | roused (active : r.active = true) (idle : r.writing = false) (is_open : r.phase = .opened) (wanted : r.names ≠ []) :
      Advances assignment r .wake { r with dirty := true, woken := r.newest, writing := true } .send
  | slept (inactive : r.active = false) : Advances assignment r .wake r .ended
  | ended : Advances assignment r .ended r .ended

theorem advance_advances (r : EdsReactor Member Resource) (pc : EdsPc) :
    Advances assignment r pc (r.advance assignment pc).1 (r.advance assignment pc).2 := by
  cases pc with
  | request want =>
    by_cases changed : want = r.names
    · subst changed
      simp only [advance, ne_eq, not_true_eq_false, if_false]
      exact .repeated
    · simp only [advance, ne_eq, changed, not_false_eq_true, if_true]
      obtain ⟨kept, claim_eq⟩ | ⟨idle, is_open, wanted, claim_eq⟩ :=
        claimWriter_cases { r with names := want, dirty := true }
      · rw [claim_eq]
        exact .renamed changed kept
      · rw [claim_eq]
        exact .claimed changed idle is_open wanted
  | rearm run => exact .rearmed
  | send =>
    by_cases pointless : r.phase ≠ .opened || !r.dirty || r.names.isEmpty
    · rw [advance, if_pos pointless]
      exact .stopped (by simpa [or_assoc] using pointless)
    · rw [advance, if_neg pointless]
      simp only [ne_eq, decide_not, Bool.or_eq_true, Bool.not_eq_eq_eq_not, Bool.not_true, decide_eq_false_iff_not,
        List.isEmpty_iff, not_or, not_not, Bool.not_eq_false] at pointless
      exact .began pointless.1.1 pointless.1.2 pointless.2
  | membership want => exact .looked
  | render want members =>
    cases made : resourcesOf assignment (r.render assignment members).1 want with
    | some resources =>
      simp only [advance, made, render_snd]
      exact .rendered made
    | none =>
      simp only [advance, made, render_snd]
      exact .unrendered made
  | startWrite => exact .started
  | failed => exact .gaveUp
  | writeDone =>
    by_cases again : r.dirty && r.phase = .opened
    · rw [advance, if_pos again]
      simp only [and_eq_true, decide_eq_true_eq] at again
      exact .again again.1 again.2
    · rw [advance, if_neg again]
      simp only [and_eq_true, decide_eq_true_eq, not_and_or, Bool.not_eq_true] at again
      exact .wrote again
  | writeFailed => exact .broke
  | maybeDone =>
    by_cases done : r.phase = .readsDone && !r.writing
    · rw [advance, if_pos done]
      simp only [and_eq_true, decide_eq_true_eq, Bool.not_eq_eq_eq_not, Bool.not_true] at done
      exact .done done.1 done.2
    · rw [advance, if_neg done]
      simp only [and_eq_true, decide_eq_true_eq, Bool.not_eq_eq_eq_not, Bool.not_true] at done
      exact .undone done
  | finish status => exact .finished
  | ending status =>
    cases is_over : r.phase.readsOver with
    | true =>
      simp only [advance, is_over, if_true]
      exact .endedBefore is_over
    | false =>
      simp only [advance, is_over, Bool.false_eq_true, if_false]
      exact .ending is_over
  | wake =>
    cases active : r.active with
    | false =>
      simp only [advance, active, Bool.false_eq_true, if_false]
      exact .slept active
    | true =>
      simp only [advance, active, if_true]
      obtain ⟨kept, claim_eq⟩ | ⟨idle, is_open, wanted, claim_eq⟩ :=
        claimWriter_cases { r with dirty := true, woken := r.newest }
      · rw [active] at claim_eq
        rw [claim_eq]
        have woke : Advances assignment r _ _ _ := .woke active kept
        rwa [active] at woke
      · rw [active] at claim_eq
        rw [claim_eq]
        have roused : Advances assignment r _ _ _ := .roused active idle is_open wanted
        rwa [active] at roused
  | ended => exact .ended

/-- What may happen next does this. -/
inductive Steps (assignment : String → List Member → Option Resource) (r : EdsReactor Member Resource) :
    Act Member → EdsReactor Member Resource → Prop
  | run {index : ℕ} {pc pc' : EdsPc} {callback : Bool} {r' : EdsReactor Member Resource}
      (found : r.threads[index]? = some ⟨pc, callback⟩) (advances : Advances assignment r pc r' pc') :
      Steps assignment r (.run index) { r' with threads := r.threads.set index ⟨pc', callback⟩ }
  | readDone {typeUrl : String} {resourceNames : List String} (reading : r.reading = true) :
      Steps assignment r (.readDone typeUrl resourceNames)
        (spawn { r with reading := false } (received typeUrl resourceNames) true)
  | readsEnd (reading : r.reading = true) :
      Steps assignment r .readsEnd (spawn { r with reading := false } (.ending .ok) true)
  | writeDone {ok : Bool} (outstanding : 0 < r.outstanding) :
      Steps assignment r (.writeDone ok)
        (spawn { r with outstanding := r.outstanding - 1 } (if ok then .writeDone else .writeFailed) true)
  | publish {list : String → List Member} :
      Steps assignment r (.publish list) (spawn { r with lists := r.lists ++ [list] } .wake false)
  | rouse : Steps assignment r .rouse (r.spawn .wake false)
  | renderElsewhere {members : ℕ} (published : members < r.lists.length) :
      Steps assignment r (.renderElsewhere members)
        { r with renderedFrom := some members, rendered := (r.render assignment members).1 }
  | setActive {active : Bool} : Steps assignment r (.setActive active) { r with active }

theorem Act.perform_steps {r r' : EdsReactor Member Resource} {act : Act Member}
    (performed : act.perform assignment r = some r') : Steps assignment r act r' := by
  cases act with
  | run index =>
    simp only [Act.perform] at performed
    split at performed
    case h_1 thread found =>
      cases performed
      exact .run found (r.advance_advances thread.pc)
    case h_2 => cases performed
  | readDone typeUrl resourceNames =>
    by_cases reading : r.reading = true
    · simp only [Act.perform, reading, if_true] at performed
      cases performed
      exact .readDone reading
    · simp [Act.perform, reading] at performed
  | readsEnd =>
    by_cases reading : r.reading = true
    · simp only [Act.perform, reading, if_true] at performed
      cases performed
      exact .readsEnd reading
    · simp [Act.perform, reading] at performed
  | writeDone ok =>
    by_cases outstanding : 0 < r.outstanding
    · rw [Act.perform, if_pos outstanding] at performed
      cases performed
      exact .writeDone outstanding
    · rw [Act.perform, if_neg outstanding] at performed
      cases performed
  | publish list =>
    cases performed
    exact .publish
  | rouse =>
    cases performed
    exact .rouse
  | renderElsewhere members =>
    by_cases published : members < r.lists.length
    · rw [Act.perform, if_pos published] at performed
      cases performed
      rw [render_snd]
      exact .renderElsewhere published
    · rw [Act.perform, if_neg published] at performed
      cases performed
  | setActive active =>
    cases performed
    exact .setActive

end Steps

/-! ## Who writes -/

/-- A thread that has taken the writer's place. -/
def writes : EdsPc → Bool
  | .rearm run => run
  | .send => true
  | .membership _ => true
  | .render _ _ => true
  | .startWrite => true
  | .failed => true
  | .writeDone => true
  | .writeFailed => true
  | _ => false

/-- A thread that has yet to see whether the stream is done. -/
def settles : EdsPc → Bool
  | .maybeDone => true
  | _ => false

/-- A thread about to call `Finish`. -/
def finishing : EdsPc → Bool
  | .finish _ => true
  | _ => false

/-- A thread in whose hands the next read is, or the end of reads. -/
def onRead : EdsPc → Bool
  | .request _ => true
  | .rearm _ => true
  | .ending _ => true
  | _ => false

/-- A thread on its way from the flag it cleared to the response. -/
def carries : EdsPc → Bool
  | .membership _ => true
  | .render _ _ => true
  | .startWrite => true
  | .failed => true
  | _ => false

/-- Flags, threads and writes fit together. -/
structure Seated (r : EdsReactor Member Resource) : Prop where
  writers : count writes r.threads + r.outstanding = r.writing.toNat
  finishes : count finishing r.threads + r.finishes.length = r.phase.isFinished.toNat
  finished : r.phase = .finished → r.writing = false
  settling : r.phase = .readsDone → r.writing = false → 0 < count settles r.threads
  reads : count onRead r.threads + r.reading.toNat + r.phase.readsOver.toNat = 1

section Seats

variable {assignment} {r r' : EdsReactor Member Resource} {index : ℕ} {callback : Bool} {pc pc' : EdsPc}

@[simp] theorem readsOver_close (phase : Phase) : phase.close.readsOver = phase.readsOver := by
  cases phase <;> rfl

@[simp] theorem isFinished_close (phase : Phase) : phase.close.isFinished = phase.isFinished := by
  cases phase <;> rfl

section Steps

variable (seated : Seated r) (found : r.threads[index]? = some ⟨pc, callback⟩)
include seated found

/-- The thread that has the writer's place is the only one, and no write is outstanding. -/
theorem Seated.sole (is_writer : writes pc = true) :
    count writes r.threads = 1 ∧ r.outstanding = 0 ∧ r.writing = true := by
  have writers := seated.writers
  have counted := le_count writes found
  simp only [is_writer, toNat_true] at counted
  cases writing : r.writing with
  | false =>
    simp only [writing, toNat_false] at writers
    omega
  | true =>
    simp only [writing, toNat_true] at writers
    exact ⟨by omega, by omega, rfl⟩

/-- While a thread has the next read in its hands no read is outstanding. -/
theorem Seated.at_read (reads_at : onRead pc = true) :
    r.reading = false ∧ r.phase.readsOver = false := by
  have balance := seated.reads
  have counted := le_count onRead found
  simp only [reads_at, toNat_true] at counted
  exact ⟨toNat_eq_zero.mp (by omega), toNat_eq_zero.mp (by omega)⟩

/-- One thread moves, and the flags with it. -/
theorem Seated.moved
    (threads_eq : r'.threads = r.threads.set index ⟨pc', callback⟩)
    (writers : (writes pc').toNat + r'.outstanding + r.writing.toNat =
      (writes pc).toNat + r.outstanding + r'.writing.toNat)
    (finishes : (finishing pc').toNat + r'.finishes.length + r.phase.isFinished.toNat =
      (finishing pc).toNat + r.finishes.length + r'.phase.isFinished.toNat)
    (finished : r'.phase = .finished → r'.writing = false)
    (settling : r'.phase = .readsDone → r'.writing = false →
      settles pc' = true ∨ settles pc = false ∧ r.phase = .readsDone ∧ r.writing = false)
    (reads : (onRead pc').toNat + r'.reading.toNat + r'.phase.readsOver.toNat =
      (onRead pc).toNat + r.reading.toNat + r.phase.readsOver.toNat) : Seated r' where
  writers := by
    have moved := count_set writes found ⟨pc', callback⟩
    have balance := seated.writers
    rw [threads_eq]
    simp only at moved
    omega
  finishes := by
    have moved := count_set finishing found ⟨pc', callback⟩
    have balance := seated.finishes
    rw [threads_eq]
    simp only at moved
    omega
  finished := finished
  settling done idle := by
    have moved := count_set settles found ⟨pc', callback⟩
    rw [threads_eq]
    obtain settles_now | ⟨not_settled, done_before, idle_before⟩ := settling done idle
    · rw [settles_now, toNat_true] at moved
      have counted := le_count settles found
      simp only at moved counted
      omega
    · have settling_before := seated.settling done_before idle_before
      rw [not_settled, toNat_false] at moved
      omega
  reads := by
    have moved := count_set onRead found ⟨pc', callback⟩
    have balance := seated.reads
    rw [threads_eq]
    simp only at moved
    omega

/-- The writer gives up its place. -/
theorem Seated.resign (is_writer : writes pc = true)
    (outside : finishing pc = false ∧ onRead pc = false) {phase : Phase} (over_eq : phase.readsOver = r.phase.readsOver)
    (finished : phase.isFinished = r.phase.isFinished) :
    Seated { r with writing := false, phase, threads := r.threads.set index ⟨.maybeDone, callback⟩ } := by
  obtain ⟨_, _, writing⟩ := seated.sole found is_writer
  apply seated.moved found rfl
  · rw [is_writer, writing]
    exact Nat.add_right_comm _ _ _
  · rw [outside.1, finished]
    rfl
  · exact fun _ => rfl
  · exact fun _ _ => .inl rfl
  · rw [outside.2, over_eq]
    rfl

/-- A thread takes its next step. -/
theorem Seated.advances (advances : Advances assignment r pc r' pc') :
    Seated { r' with threads := r.threads.set index ⟨pc', callback⟩ } := by
  cases advances with
  | renamed _ _ | repeated | began _ _ _ | looked | rendered _ | unrendered _ | woke _ _ | slept _ | ended =>
    exact seated.moved found rfl rfl rfl seated.finished (fun done idle => .inr ⟨rfl, done, idle⟩) rfl
  | claimed _ idle is_open _ | roused _ idle is_open _ =>
    apply seated.moved found rfl
    · rw [idle]
      change 1 + r.outstanding + 0 = 0 + r.outstanding + 1
      omega
    · rfl
    · simp [is_open]
    · simp [is_open]
    · rfl
  | @rearmed run =>
    obtain ⟨not_reading, _⟩ := seated.at_read found rfl
    apply seated.moved found rfl
    · cases run <;> rfl
    · cases run <;> rfl
    · exact seated.finished
    · exact fun done idle => .inr ⟨rfl, done, idle⟩
    · rw [not_reading]
      cases run <;> rfl
  | stopped _ | wrote _ => exact seated.resign found rfl ⟨rfl, rfl⟩ rfl rfl
  | gaveUp | broke => exact seated.resign found rfl ⟨rfl, rfl⟩ (readsOver_close _) (isFinished_close _)
  | started =>
    apply seated.moved found rfl
    · simp only [writes, toNat_true, toNat_false]
      omega
    · rfl
    · exact seated.finished
    · exact fun done idle => .inr ⟨rfl, done, idle⟩
    · rfl
  | again _ is_open =>
    have writing := (seated.sole found rfl).2.2
    apply seated.moved found rfl
    · rw [writing]
      rfl
    · rfl
    · simp [is_open]
    · simp [is_open]
    · rfl
  | done reads_done idle =>
    apply seated.moved found rfl
    · rfl
    · rw [reads_done]
      change 1 + r.finishes.length + 0 = 0 + r.finishes.length + 1
      omega
    · exact fun _ => idle
    · nofun
    · rw [reads_done]
      rfl
  | undone not_done =>
    apply seated.moved found rfl
    · rfl
    · rfl
    · exact seated.finished
    · exact fun reads_done idle => absurd ⟨reads_done, idle⟩ not_done
    · rfl
  | finished =>
    apply seated.moved found rfl
    · rfl
    · simp only [finishing, List.length_append, List.length_singleton, toNat_true, toNat_false]
      omega
    · exact seated.finished
    · exact fun done idle => .inr ⟨rfl, done, idle⟩
    · rfl
  | ending not_over =>
    have unfinished : r.phase.isFinished = false := by
      cases phase_eq : r.phase <;> simp_all [Phase.readsOver, Phase.isFinished]
    apply seated.moved found rfl
    · rfl
    · rw [unfinished]
      rfl
    · nofun
    · exact fun _ _ => .inl rfl
    · rw [not_over]
      exact Nat.add_right_comm _ _ _
  | endedBefore is_over =>
    have not_over := (seated.at_read found rfl).2
    cases is_over.symm.trans not_over

end Steps

/-- A thread starts that holds what was outstanding before. -/
theorem Seated.spawned (seated : Seated r) (threads_eq : r'.threads = r.threads ++ [⟨pc, callback⟩])
    (same : r'.writing = r.writing ∧ r'.phase = r.phase ∧ r'.finishes = r.finishes)
    (outside : finishing pc = false) (writers : (writes pc).toNat + r'.outstanding = r.outstanding)
    (reads : (onRead pc).toNat + r'.reading.toNat = r.reading.toNat) : Seated r' := by
  obtain ⟨writing_eq, phase_eq, finishes_eq⟩ := same
  refine ⟨?_, ?_, ?_, ?_, ?_⟩
  · have balance := seated.writers
    rw [threads_eq, count_append_single, writing_eq]
    simp only
    omega
  · rw [threads_eq, count_append_single, phase_eq, finishes_eq]
    simpa [outside] using seated.finishes
  · rw [phase_eq, writing_eq]
    exact seated.finished
  · rw [phase_eq, writing_eq, threads_eq]
    exact fun done idle => (seated.settling done idle).trans_le (count_le_append _ _ _)
  · have balance := seated.reads
    rw [threads_eq, count_append_single, phase_eq]
    simp only
    omega

theorem received_onRead (typeUrl : String) (resourceNames : List String) :
    onRead (received typeUrl resourceNames) = true ∧ writes (received typeUrl resourceNames) = false ∧
      finishing (received typeUrl resourceNames) = false := by
  unfold received
  split_ifs
  · exact ⟨rfl, rfl, rfl⟩
  · split
    · exact ⟨rfl, rfl, rfl⟩
    · exact ⟨rfl, rfl, rfl⟩

/-- One step keeps flags, threads and writes in order. -/
theorem Seated.steps (seated : Seated r) {act : Act Member} (steps : Steps assignment r act r') :
    Seated r' := by
  cases steps with
  | run found advances => exact seated.advances found advances
  | readDone reading =>
    obtain ⟨on_read, no_write, no_finish⟩ := received_onRead ‹String› ‹List String›
    refine seated.spawned rfl ⟨rfl, rfl, rfl⟩ no_finish ?_ ?_
    · simp [spawn, no_write]
    · simp [spawn, on_read, reading]
  | readsEnd reading =>
    refine seated.spawned rfl ⟨rfl, rfl, rfl⟩ rfl ?_ ?_
    · simp [spawn, writes]
    · simp [spawn, onRead, reading]
  | @writeDone ok outstanding =>
    have is_writer : writes (if ok then .writeDone else .writeFailed) = true := by cases ok <;> rfl
    have no_finish : finishing (if ok then .writeDone else .writeFailed) = false := by cases ok <;> rfl
    have no_read : onRead (if ok then .writeDone else .writeFailed) = false := by cases ok <;> rfl
    refine seated.spawned rfl ⟨rfl, rfl, rfl⟩ no_finish ?_ ?_
    · simp only [spawn, is_writer, toNat_true]
      omega
    · simp [spawn, no_read]
  | publish =>
    refine seated.spawned rfl ⟨rfl, rfl, rfl⟩ rfl ?_ ?_
    · simp [spawn, writes]
    · simp [spawn, onRead]
  | rouse =>
    refine seated.spawned rfl ⟨rfl, rfl, rfl⟩ rfl ?_ ?_
    · simp [spawn, writes]
    · simp [spawn, onRead]
  | renderElsewhere published => exact ⟨seated.writers, seated.finishes, seated.finished, seated.settling, seated.reads⟩
  | setActive => exact ⟨seated.writers, seated.finishes, seated.finished, seated.settling, seated.reads⟩

end Seats

/-! ## What the peer is told -/

/-- The response holds what is made of the list it names. -/
def Faithful (r : EdsReactor Member Resource) (response : Response Resource) : Prop :=
  response.members < r.lists.length ∧
    resourcesOf assignment (renderedOf assignment (r.listAt response.members)) response.names = some response.resources

/-- The response is for the names wanted now, from a list no older than the last wake. -/
def Suits (r : EdsReactor Member Resource) (response : Response Resource) : Prop :=
  response.names = r.names ∧ r.woken ≤ response.members

/-- What a thread carries is up to date, unless `dirty` is set. -/
def Carried (r : EdsReactor Member Resource) : EdsPc → Prop
  | .membership want => r.dirty = false → want = r.names
  | .render want members => members < r.lists.length ∧ (r.dirty = false → want = r.names ∧ r.woken ≤ members)
  | .startWrite => Faithful assignment r r.out ∧ (r.dirty = false → Suits r r.out)
  | _ => True

/-- Nothing that changed is forgotten. -/
structure Current (r : EdsReactor Member Resource) : Prop where
  lists : r.lists ≠ []
  cached : Cached assignment r
  woken : r.woken ≤ r.newest
  due : r.phase = .opened → r.names ≠ [] → r.dirty = true → r.writing = true
  carried : ∀ thread ∈ r.threads, Carried assignment r thread.pc
  last : r.phase = .opened → r.names ≠ [] → r.dirty = false → count carries r.threads = 0 →
    ∃ response, r.responses.getLast? = some response ∧ Suits r response
  responses : ∀ response ∈ r.responses, Faithful assignment r response

section Current

variable {assignment} {r r' : EdsReactor Member Resource} {index : ℕ} {callback : Bool} {pc pc' : EdsPc}

theorem carries_writes (pc : EdsPc) (carried : carries pc = true) : writes pc = true := by
  cases pc <;> simp_all [carries, writes]

theorem carried_of_not_carries (r : EdsReactor Member Resource) (idle : carries pc = false) :
    Carried assignment r pc := by
  cases pc <;> simp_all [carries, Carried]

/-- The lists so far stay as they are. -/
theorem listAt_eq (extends_lists : r.lists <+: r'.lists) {members : ℕ}
    (published : members < r.lists.length) : r'.listAt members = r.listAt members := by
  obtain ⟨more, more_eq⟩ := extends_lists
  rw [listAt, listAt, ← more_eq, List.getD_eq_getElem?_getD, List.getElem?_append_left published,
    List.getD_eq_getElem?_getD]

theorem Faithful.mono (extends_lists : r.lists <+: r'.lists) {response : Response Resource}
    (faithful : Faithful assignment r response) : Faithful assignment r' response := by
  obtain ⟨published, made⟩ := faithful
  refine ⟨published.trans_le extends_lists.length_le, ?_⟩
  rw [listAt_eq extends_lists published]
  exact made

/-- What is carried stays up to date if nothing changed, or `dirty` says so. -/
theorem Carried.mono (extends_lists : r.lists <+: r'.lists) (out_eq : r'.out = r.out)
    (news : r'.dirty = true ∨ r'.dirty = r.dirty ∧ r'.names = r.names ∧ r'.woken = r.woken)
    (carried : Carried assignment r pc) : Carried assignment r' pc := by
  have before {P : Prop} (up_to_date : r.dirty = false → P) (clean : r'.dirty = false) :
      P ∧ r'.names = r.names ∧ r'.woken = r.woken := by
    obtain dirty | ⟨dirty_eq, names_eq, woken_eq⟩ := news
    · cases clean.symm.trans dirty
    · exact ⟨up_to_date (dirty_eq.symm.trans clean), names_eq, woken_eq⟩
  cases pc with
  | membership want =>
    intro clean
    obtain ⟨want_eq, names_eq, _⟩ := before carried clean
    exact want_eq.trans names_eq.symm
  | render want members =>
    refine ⟨carried.1.trans_le extends_lists.length_le, fun clean => ?_⟩
    obtain ⟨⟨want_eq, no_older⟩, names_eq, woken_eq⟩ := before carried.2 clean
    exact ⟨want_eq.trans names_eq.symm, woken_eq ▸ no_older⟩
  | startWrite =>
    refine ⟨out_eq.symm ▸ carried.1.mono extends_lists, fun clean => ?_⟩
    obtain ⟨⟨want_eq, no_older⟩, names_eq, woken_eq⟩ := before carried.2 clean
    rw [Suits, out_eq, names_eq, woken_eq]
    exact ⟨want_eq, no_older⟩
  | _ => trivial

/-- A thread moves and nothing that is told changes. -/
theorem Current.kept (current : Current assignment r) (threads : List (Thread EdsPc))
    (threads_mem : ∀ thread ∈ threads, thread ∈ r.threads ∨ carries thread.pc = false)
    (same : r'.names = r.names ∧ r'.dirty = r.dirty ∧ r'.woken = r.woken ∧ r'.out = r.out ∧ r'.responses = r.responses)
    (extends_lists : r.lists <+: r'.lists) (cached : Cached assignment r') (threads_eq : r'.threads = threads)
    (due : r'.phase = .opened → r.names ≠ [] → r.dirty = true → r'.writing = true)
    (last : r'.phase = .opened → r.phase = .opened ∧ count carries r.threads ≤ count carries threads) :
    Current assignment r' := by
  obtain ⟨names_eq, dirty_eq, woken_eq, out_eq, responses_eq⟩ := same
  have no_shorter := extends_lists.length_le
  refine ⟨?_, cached, ?_, ?_, ?_, ?_, ?_⟩
  · exact List.ne_nil_of_length_pos ((List.length_pos_of_ne_nil current.lists).trans_le no_shorter)
  · have woken := current.woken
    rw [newest] at woken ⊢
    omega
  · rw [names_eq, dirty_eq]
    exact due
  · intro thread mem
    rw [threads_eq] at mem
    obtain old | idle := threads_mem thread mem
    · exact (current.carried thread old).mono extends_lists out_eq (.inr ⟨dirty_eq, names_eq, woken_eq⟩)
    · exact carried_of_not_carries r' idle
  · intro is_open wanted clean none_carries
    rw [names_eq] at wanted
    rw [dirty_eq] at clean
    rw [threads_eq] at none_carries
    obtain ⟨was_open, no_fewer⟩ := last is_open
    obtain ⟨response, response_eq, suits⟩ := current.last was_open wanted clean (by omega)
    refine ⟨response, responses_eq.symm ▸ response_eq, ?_⟩
    rw [Suits, names_eq, woken_eq]
    exact suits
  · intro response mem
    rw [responses_eq] at mem
    exact (current.responses response mem).mono extends_lists

/-- `dirty` is set, for new names or after a wake. -/
theorem Current.dirtied (current : Current assignment r) (idle : carries pc' = false)
    (names : List String) {woken : ℕ} (woken_le : woken ≤ r.newest) {writing : Bool}
    (due : r.phase = .opened → names ≠ [] → writing = true) :
    Current assignment { r with
      names, dirty := true, woken, writing, threads := r.threads.set index ⟨pc', callback⟩ } where
  lists := current.lists
  cached := current.cached
  woken := woken_le
  due is_open wanted _ := due is_open wanted
  carried thread mem := by
    obtain old | rfl := List.mem_or_eq_of_mem_set mem
    · exact Carried.mono (r := r) (prefix_refl _) rfl (.inl rfl) (current.carried thread old)
    · exact carried_of_not_carries _ idle
  last _ _ clean := by cases clean
  responses := current.responses

/-- Two threads that carry something are one. -/
theorem Seated.one_carries (seated : Seated r) {first second : Thread EdsPc} (first_mem : first ∈ r.threads)
    (second_mem : second ∈ r.threads) (first_carries : writes first.pc = true)
    (second_carries : carries second.pc = true) : first = second := by
  have writers := seated.writers
  have one_writes := toNat_le r.writing
  exact @eq_of_count_le_one _ _ writes (by omega) _ _ first_mem second_mem first_carries
    (carries_writes _ second_carries)

/-- The writer takes what it carries a step further; nobody else carries anything. -/
theorem Current.carry (current : Current assignment r) (seated : Seated r)
    (found : r.threads[index]? = some ⟨pc, callback⟩) (is_writer : writes pc = true)
    (same : r'.names = r.names ∧ r'.woken = r.woken ∧ r'.responses = r.responses ∧ r'.lists = r.lists ∧
      r'.phase = r.phase ∧ r'.writing = r.writing)
    (threads_eq : r'.threads = r.threads.set index ⟨pc', callback⟩) (cached : Cached assignment r')
    (now_carries : carries pc' = true) (carried : Carried assignment r' pc')
    (before : Carried assignment r pc → Carried assignment r' pc) : Current assignment r' := by
  obtain ⟨names_eq, woken_eq, responses_eq, lists_eq, phase_eq, writing_eq⟩ := same
  have mem : (⟨pc, callback⟩ : Thread EdsPc) ∈ r.threads := List.mem_of_getElem? found
  have extends_lists : r.lists <+: r'.lists := lists_eq ▸ prefix_refl _
  refine ⟨lists_eq ▸ current.lists, cached, ?_, ?_, ?_, ?_, ?_⟩
  · rw [newest, woken_eq, lists_eq]
    exact current.woken
  · intro _ _ _
    rw [writing_eq]
    exact (seated.sole found is_writer).2.2
  · intro thread thread_mem
    rw [threads_eq] at thread_mem
    obtain old | rfl := List.mem_or_eq_of_mem_set thread_mem
    · cases other_carries : carries thread.pc with
      | false => exact carried_of_not_carries r' other_carries
      | true =>
        obtain rfl := seated.one_carries mem old is_writer other_carries
        exact before (current.carried _ old)
    · exact carried
  · intro _ _ _ none_carries
    have counted : 0 < count carries r'.threads := by
      rw [threads_eq]
      obtain ⟨lt, _⟩ := List.getElem?_eq_some_iff.mp found
      exact count_pos_iff.mpr ⟨_, List.mem_set lt _, now_carries⟩
    omega
  · intro response response_mem
    rw [responses_eq] at response_mem
    exact (current.responses response response_mem).mono extends_lists

/-- With a sound cache, rendering gives what is made of the list. -/
theorem render_fst (cached : Cached assignment r) (members : ℕ) :
    (r.render assignment members).1 = renderedOf assignment (r.listAt members) := by
  by_cases same : r.renderedFrom = some members
  · rw [render, if_pos same]
    exact (cached members same).2
  · rw [render, if_neg same]

theorem Cached.rendered (cached : Cached assignment r) {members : ℕ} (published : members < r.lists.length) :
    Cached assignment { r with renderedFrom := some members, rendered := (r.render assignment members).1 } := by
  intro other other_eq
  cases other_eq
  exact ⟨published, render_fst cached members⟩

theorem newest_lt (lists : r.lists ≠ []) : r.newest < r.lists.length := by
  have pos := List.length_pos_of_ne_nil lists
  rw [newest]
  omega

/-- A thread takes its next step. -/
theorem Current.advances (current : Current assignment r) (seated : Seated r)
    (found : r.threads[index]? = some ⟨pc, callback⟩) (advances : Advances assignment r pc r' pc') :
    Current assignment { r' with threads := r.threads.set index ⟨pc', callback⟩ } := by
  have mem : (⟨pc, callback⟩ : Thread EdsPc) ∈ r.threads := List.mem_of_getElem? found
  have threads_mem (idle : carries pc' = false) :
      ∀ thread ∈ r.threads.set index ⟨pc', callback⟩, thread ∈ r.threads ∨ carries thread.pc = false := by
    intro thread thread_mem
    obtain old | rfl := List.mem_or_eq_of_mem_set thread_mem
    · exact .inl old
    · exact .inr idle
  have uncarried (same : carries pc' = carries pc) :
      count carries r.threads ≤ count carries (r.threads.set index ⟨pc', callback⟩) :=
    (count_kept carries found ⟨pc', callback⟩ same).ge
  cases advances with
  | renamed _ kept =>
    apply current.dirtied rfl _ current.woken
    intro is_open wanted
    obtain writing | closed | unwanted := kept
    · exact writing
    · exact absurd is_open closed
    · exact absurd unwanted wanted
  | claimed _ _ _ _ => exact current.dirtied rfl _ current.woken fun _ _ => rfl
  | woke _ kept =>
    apply current.dirtied rfl _ le_rfl
    intro is_open wanted
    obtain writing | closed | unwanted := kept
    · exact writing
    · exact absurd is_open closed
    · exact absurd unwanted wanted
  | roused _ _ _ _ => exact current.dirtied rfl _ le_rfl fun _ _ => rfl
  | repeated | undone _ | finished | endedBefore _ | slept _ | ended =>
    exact current.kept _ (threads_mem rfl) ⟨rfl, rfl, rfl, rfl, rfl⟩ (prefix_refl _) current.cached rfl
      current.due fun is_open => ⟨is_open, uncarried rfl⟩
  | @rearmed run =>
    have idle : carries (if run then .send else .ended) = false := by cases run <;> rfl
    exact current.kept _ (threads_mem idle) ⟨rfl, rfl, rfl, rfl, rfl⟩ (prefix_refl _) current.cached rfl
      current.due fun is_open => ⟨is_open, uncarried idle⟩
  | again _ _ =>
    exact current.kept _ (threads_mem rfl) ⟨rfl, rfl, rfl, rfl, rfl⟩ (prefix_refl _) current.cached rfl
      (fun _ _ _ => rfl) fun is_open => ⟨is_open, uncarried rfl⟩
  | stopped pointless =>
    refine current.kept _ (threads_mem rfl) ⟨rfl, rfl, rfl, rfl, rfl⟩ (prefix_refl _) current.cached rfl
      ?_ fun is_open => ⟨is_open, uncarried rfl⟩
    intro is_open wanted dirty
    obtain closed | clean | unwanted := pointless
    · exact absurd is_open closed
    · cases clean.symm.trans dirty
    · exact absurd unwanted wanted
  | wrote settled =>
    refine current.kept _ (threads_mem rfl) ⟨rfl, rfl, rfl, rfl, rfl⟩ (prefix_refl _) current.cached rfl
      ?_ fun is_open => ⟨is_open, uncarried rfl⟩
    intro is_open _ dirty
    obtain clean | closed := settled
    · cases clean.symm.trans dirty
    · exact absurd is_open closed
  | gaveUp | broke =>
    have not_open : r.phase.close ≠ .opened := by cases r.phase <;> nofun
    exact current.kept _ (threads_mem rfl) ⟨rfl, rfl, rfl, rfl, rfl⟩ (prefix_refl _) current.cached rfl
      (fun is_open => absurd is_open not_open) fun is_open => absurd is_open not_open
  | done _ _ | ending _ =>
    exact current.kept _ (threads_mem rfl) ⟨rfl, rfl, rfl, rfl, rfl⟩ (prefix_refl _) current.cached rfl
      nofun nofun
  | began _ _ _ =>
    exact current.carry seated found rfl ⟨rfl, rfl, rfl, rfl, rfl, rfl⟩ rfl current.cached rfl
      (fun _ => rfl) fun _ => trivial
  | @looked want =>
    refine current.carry seated found rfl ⟨rfl, rfl, rfl, rfl, rfl, rfl⟩ rfl current.cached rfl ?_ id
    exact ⟨newest_lt current.lists, fun clean => ⟨current.carried _ mem clean, current.woken⟩⟩
  | @rendered want members resources made =>
    obtain ⟨published, up_to_date⟩ := current.carried _ mem
    refine current.carry seated found rfl ⟨rfl, rfl, rfl, rfl, rfl, rfl⟩ rfl
      (current.cached.rendered published) rfl ⟨⟨published, ?_⟩, up_to_date⟩ id
    rw [render_fst current.cached] at made
    exact made
  | unrendered _ =>
    obtain ⟨published, _⟩ := current.carried _ mem
    exact current.carry seated found rfl ⟨rfl, rfl, rfl, rfl, rfl, rfl⟩ rfl
      (current.cached.rendered published) rfl trivial id
  | started =>
    obtain ⟨faithful, up_to_date⟩ := current.carried _ mem
    have writing := (seated.sole found rfl).2.2
    refine ⟨current.lists, current.cached, current.woken, fun _ _ _ => writing, ?_, ?_, ?_⟩
    · intro thread thread_mem
      obtain old | idle := threads_mem rfl thread thread_mem
      · exact current.carried thread old
      · exact carried_of_not_carries _ idle
    · intro _ _ clean _
      exact ⟨r.out, by simp, up_to_date clean⟩
    · intro response response_mem
      obtain old | new := mem_append.mp response_mem
      · exact current.responses response old
      · obtain rfl := mem_singleton.mp new
        exact faithful

theorem received_not_carries (typeUrl : String) (resourceNames : List String) :
    carries (received typeUrl resourceNames) = false := by
  unfold received
  split_ifs
  · rfl
  · split <;> rfl

/-- One step forgets nothing. -/
theorem Current.steps (current : Current assignment r) (seated : Seated r) {act : Act Member}
    (steps : Steps assignment r act r') : Current assignment r' := by
  have threads_mem {pc : EdsPc} {callback : Bool} (idle : carries pc = false) :
      ∀ thread ∈ r.threads ++ [⟨pc, callback⟩], thread ∈ r.threads ∨ carries thread.pc = false := by
    intro thread thread_mem
    obtain old | new := mem_append.mp thread_mem
    · exact .inl old
    · obtain rfl := mem_singleton.mp new
      exact .inr idle
  cases steps with
  | run found advances => exact current.advances seated found advances
  | readDone _ =>
    exact current.kept _ (threads_mem (received_not_carries _ _)) ⟨rfl, rfl, rfl, rfl, rfl⟩ (prefix_refl _)
      current.cached rfl current.due fun is_open => ⟨is_open, count_le_append _ _ _⟩
  | readsEnd _ =>
    exact current.kept _ (threads_mem rfl) ⟨rfl, rfl, rfl, rfl, rfl⟩ (prefix_refl _)
      current.cached rfl current.due fun is_open => ⟨is_open, count_le_append _ _ _⟩
  | @writeDone ok _ =>
    have idle : carries (if ok then .writeDone else .writeFailed) = false := by cases ok <;> rfl
    exact current.kept _ (threads_mem idle) ⟨rfl, rfl, rfl, rfl, rfl⟩ (prefix_refl _)
      current.cached rfl current.due fun is_open => ⟨is_open, count_le_append _ _ _⟩
  | @publish list =>
    refine current.kept _ (threads_mem rfl) ⟨rfl, rfl, rfl, rfl, rfl⟩ (prefix_append _ _) ?_ rfl
      current.due fun is_open => ⟨is_open, count_le_append _ _ _⟩
    intro members members_eq
    obtain ⟨published, rendered_eq⟩ := current.cached members members_eq
    refine ⟨published.trans_le (prefix_append _ _).length_le, ?_⟩
    rw [listAt_eq (r := r) (prefix_append _ _) published]
    exact rendered_eq
  | rouse =>
    exact current.kept _ (threads_mem rfl) ⟨rfl, rfl, rfl, rfl, rfl⟩ (prefix_refl _)
      current.cached rfl current.due fun is_open => ⟨is_open, count_le_append _ _ _⟩
  | renderElsewhere published =>
    exact current.kept _ (fun _ => .inl) ⟨rfl, rfl, rfl, rfl, rfl⟩ (prefix_refl _)
      (current.cached.rendered published) rfl current.due fun is_open => ⟨is_open, le_rfl⟩
  | setActive =>
    exact current.kept _ (fun _ => .inl) ⟨rfl, rfl, rfl, rfl, rfl⟩ (prefix_refl _)
      current.cached rfl current.due fun is_open => ⟨is_open, le_rfl⟩

theorem Opens.seated (opens : Opens assignment r) : Seated r := by
  rw [opens.fresh]
  exact ⟨rfl, rfl, nofun, nofun, rfl⟩

theorem Opens.current (opens : Opens assignment r) : Current assignment r := by
  have threads_eq : r.threads = [] := by rw [opens.fresh]
  have names_eq : r.names = [] := by rw [opens.fresh]
  have responses_eq : r.responses = [] := by rw [opens.fresh]
  have woken_eq : r.woken = r.newest := by
    rw [opens.fresh]
    rfl
  refine ⟨opens.lists, opens.cached, woken_eq.le, ?_, ?_, ?_, ?_⟩
  · exact fun _ wanted => absurd names_eq wanted
  · rw [threads_eq]
    nofun
  · exact fun _ wanted => absurd names_eq wanted
  · rw [responses_eq]
    nofun

theorem Reached.sound {acts : List (Act Member)} (reached : Reached assignment r acts) :
    Seated r ∧ Current assignment r := by
  apply Run.Reached.state_invariant (P := fun r => Seated r ∧ Current assignment r) _ _ reached
  · exact fun r opens => ⟨opens.seated, opens.current⟩
  · rintro r acts r' ⟨seated, current⟩ ⟨act, _, performed⟩
    have steps := Act.perform_steps performed
    exact ⟨seated.steps steps, current.steps seated steps⟩

/-- A thread that is a wake which has not come through. -/
def waking : EdsPc → Bool
  | .wake => true
  | _ => false

/-- Every list is followed by a wake. -/
def Announced (r : EdsReactor Member Resource) : Prop :=
  r.active = true ∧ (count waking r.threads = 0 → r.woken = r.newest)

theorem Announced.moved (announced : Announced r) (found : r.threads[index]? = some ⟨pc, callback⟩)
    (idle : waking pc = false) (same : r'.active = r.active ∧ r'.woken = r.woken ∧ r'.lists = r.lists)
    (threads_eq : r'.threads = r.threads.set index ⟨pc', callback⟩) : Announced r' := by
  obtain ⟨active_eq, woken_eq, lists_eq⟩ := same
  refine ⟨active_eq.trans announced.1, fun none_wakes => ?_⟩
  have moved := count_set waking found ⟨pc', callback⟩
  rw [idle, toNat_false] at moved
  rw [threads_eq] at none_wakes
  rw [newest, woken_eq, lists_eq]
  exact announced.2 (by omega)

theorem Announced.steps (announced : Announced r) {act : Act Member} (stays_active : act ≠ .setActive false)
    (steps : Steps assignment r act r') : Announced r' := by
  have spawned {r' : EdsReactor Member Resource} {thread : Thread EdsPc}
      (same : r'.active = r.active ∧ r'.woken = r.woken ∧ r'.lists = r.lists)
      (threads_eq : r'.threads = r.threads ++ [thread]) : Announced r' := by
    obtain ⟨active_eq, woken_eq, lists_eq⟩ := same
    refine ⟨active_eq.trans announced.1, fun none_wakes => ?_⟩
    rw [threads_eq, count_append_single] at none_wakes
    rw [newest, woken_eq, lists_eq]
    exact announced.2 (by omega)
  cases steps with
  | @run index pc pc' callback r'' found advances =>
    cases advances with
    | woke _ _ => exact ⟨announced.1, fun _ => rfl⟩
    | roused _ _ _ _ => exact ⟨announced.1, fun _ => rfl⟩
    | slept inactive => cases inactive.symm.trans announced.1
    | _ => exact announced.moved found rfl ⟨rfl, rfl, rfl⟩ rfl
  | readDone _ => exact spawned ⟨rfl, rfl, rfl⟩ rfl
  | readsEnd _ => exact spawned ⟨rfl, rfl, rfl⟩ rfl
  | writeDone _ => exact spawned ⟨rfl, rfl, rfl⟩ rfl
  | publish =>
    refine ⟨announced.1, fun none_wakes => ?_⟩
    simp [spawn, waking] at none_wakes
  | rouse => exact spawned ⟨rfl, rfl, rfl⟩ rfl
  | renderElsewhere _ => exact announced
  | @setActive active =>
    refine ⟨?_, announced.2⟩
    cases active with
    | true => rfl
    | false => exact absurd rfl stays_active

theorem Reached.announced {acts : List (Act Member)} (reached : Reached assignment r acts) :
    .setActive false ∉ acts → Announced r := by
  apply Run.Reached.invariant (P := fun r acts => .setActive false ∉ acts → Announced r) _ _ reached
  · intro r opens _
    refine ⟨by rw [opens.fresh], fun _ => ?_⟩
    rw [opens.fresh]
    rfl
  · rintro r earlier acts r' announced ⟨act, rfl, performed⟩ stays_active
    simp only [mem_append, mem_singleton, not_or] at stays_active
    exact (announced stays_active.1).steps (Ne.symm stays_active.2) (Act.perform_steps performed)

/-- No read is outstanding, nor a write, and no thread has anything to do but to wake up. -/
structure Quiet (r : EdsReactor Member Resource) : Prop where
  reading : r.reading = false
  outstanding : r.outstanding = 0
  threads : ∀ thread ∈ r.threads, thread.pc = .ended ∨ thread.pc = .wake

theorem Quiet.none_at (quiet : Quiet r) {kind : EdsPc → Bool} (idle : kind .ended = false)
    (wake : kind .wake = false) : count kind r.threads = 0 := by
  apply count_eq_zero
  intro thread mem
  obtain at_end | at_wake := quiet.threads thread mem
  · rw [at_end, idle]
  · rw [at_wake, wake]

theorem Seated.finished_of_quiet (seated : Seated r) (quiet : Quiet r) : r.finishes.length = 1 := by
  have reads := seated.reads
  have writers := seated.writers
  have finishes := seated.finishes
  rw [quiet.none_at rfl rfl, quiet.reading, toNat_false] at reads
  rw [quiet.none_at rfl rfl, quiet.outstanding] at writers
  rw [quiet.none_at rfl rfl] at finishes
  have reads_over : r.phase.readsOver = true := Bool.toNat_eq_one.mp (by omega)
  have idle : r.writing = false := toNat_eq_zero.mp (by omega)
  cases phase_eq : r.phase with
  | opened => simp [phase_eq, Phase.readsOver] at reads_over
  | closed => simp [phase_eq, Phase.readsOver] at reads_over
  | readsDone =>
    have settling := seated.settling phase_eq idle
    rw [quiet.none_at rfl rfl] at settling
    omega
  | finished =>
    rw [phase_eq] at finishes
    simpa [Phase.isFinished] using finishes

/-- `Finish` is called, or was, only when reads have ended and nobody writes or is about to. -/
theorem Seated.finish_last (seated : Seated r) (finishes : 0 < count finishing r.threads + r.finishes.length) :
    r.phase.readsOver = true ∧ r.writing = false ∧ r.outstanding = 0 ∧ count writes r.threads = 0 := by
  have balance := seated.finishes
  have finished : r.phase = .finished := by
    cases phase_eq : r.phase with
    | finished => rfl
    | _ =>
      rw [phase_eq] at balance
      simp only [Phase.isFinished, toNat_false] at balance
      omega
  have idle := seated.finished finished
  have writers := seated.writers
  rw [idle, toNat_false] at writers
  exact ⟨by rw [finished]; rfl, idle, by omega, by omega⟩

/-- While nobody writes, the last response is for the names wanted now. -/
theorem Current.last_suits (current : Current assignment r) (seated : Seated r) (is_open : r.phase = .opened)
    (wanted : r.names ≠ []) (idle : r.writing = false) :
    ∃ response, r.responses.getLast? = some response ∧ Faithful assignment r response ∧ Suits r response := by
  have clean : r.dirty = false := by
    cases dirty : r.dirty with
    | false => rfl
    | true => cases idle.symm.trans (current.due is_open wanted dirty)
  have writers := seated.writers
  rw [idle, toNat_false] at writers
  have le := count_mono carries_writes r.threads
  obtain ⟨response, response_eq, suits⟩ := current.last is_open wanted clean (by omega)
  exact ⟨response, response_eq, current.responses response (List.mem_of_getLast? response_eq), suits⟩

/-- In every run of an endpoint stream while the service is active: at most one write is outstanding; a change
that was noted has its writer; while nobody writes, the last response holds the resources of the names wanted
now, made of a list no older than the last wake, which is the newest list once every wake has come through;
`Finish` is called at most once, after reads have ended and while nobody writes; and it has been called when
all is quiet. -/
theorem endpoint_stream_loses_no_update {acts : List (Act Member)} (reached : Reached assignment r acts)
    (stays_active : .setActive false ∉ acts) :
    r.outstanding ≤ 1 ∧
    (r.phase = .opened → r.names ≠ [] → r.dirty = true → r.writing = true) ∧
    (r.phase = .opened → r.names ≠ [] → r.writing = false →
      ∃ response, r.responses.getLast? = some response ∧ Faithful assignment r response ∧
        response.names = r.names ∧ r.woken ≤ response.members ∧
        (count waking r.threads = 0 → response.members = r.newest)) ∧
    r.finishes.length ≤ 1 ∧
    (0 < count finishing r.threads + r.finishes.length →
      r.phase.readsOver = true ∧ r.writing = false ∧ r.outstanding = 0 ∧ count writes r.threads = 0) ∧
    (Quiet r → r.finishes.length = 1) := by
  obtain ⟨seated, current⟩ := reached.sound
  have writers := seated.writers
  have finishes := seated.finishes
  have one_writes := toNat_le r.writing
  have one_finish := toNat_le r.phase.isFinished
  refine ⟨by omega, current.due, ?_, by omega, seated.finish_last, seated.finished_of_quiet⟩
  intro is_open wanted idle
  obtain ⟨response, response_eq, faithful, names_eq, no_older⟩ := current.last_suits seated is_open wanted idle
  refine ⟨response, response_eq, faithful, names_eq, no_older, fun none_wakes => ?_⟩
  have woken_eq := (reached.announced stays_active).2 none_wakes
  have published := faithful.1
  rw [newest] at woken_eq ⊢
  omega

/-- A list is published while a response is made. -/
def race : List (Act ℕ) :=
  [.readDone "" ["x"], .run 0, .run 0, .run 0, .run 0, .publish fun _ => [7], .run 1, .run 0, .run 0,
    .writeDone true, .run 2, .run 2, .run 2, .run 2, .run 2, .writeDone true, .run 3, .run 3]

/-- The list of `race` is in the next response. -/
theorem endpoint_stream_loses_no_update_race : ∃ r : EdsReactor ℕ (String × List ℕ),
    Reached (fun system members => some (system, members)) r race ∧ .setActive false ∉ race ∧
    r.phase = .opened ∧ r.names ≠ [] ∧ r.writing = false ∧
    ∃ response, r.responses.getLast? = some response ∧ response.names = r.names ∧ response.members = r.newest := by
  have ends : (Run.play (fun r act => Act.perform (fun system members => some (system, members)) r act) race
      ({} : EdsReactor ℕ (String × List ℕ))).map
      (fun r => (r.phase, r.names, r.writing, r.threads.map Thread.pc)) =
        some (.opened, ["x"], false, [.ended, .ended, .ended, .ended]) := by
    decide +kernel
  obtain ⟨r, played, shape⟩ := Option.map_eq_some_iff.mp ends
  simp only [Prod.mk.injEq] at shape
  obtain ⟨phase_eq, names_eq, writing_eq, threads_eq⟩ := shape
  have opens : Opens (fun system members => some (system, members)) ({} : EdsReactor ℕ (String × List ℕ)) :=
    ⟨rfl, nofun, nofun⟩
  have reached : Reached (fun system members => some (system, members)) r race := Run.Reached.play (.start opens) played
  have stays_active : .setActive false ∉ race := by simp [race]
  have wanted : r.names ≠ [] := by simp [names_eq]
  have none_wakes : count waking r.threads = 0 := by
    apply count_eq_zero
    intro thread mem
    have pc_mem := List.mem_map_of_mem (f := Thread.pc) mem
    rw [threads_eq] at pc_mem
    have at_end : thread.pc = .ended := by simpa using pc_mem
    rw [at_end]
    rfl
  obtain ⟨response, response_eq, _, suits, _, newest_eq⟩ :=
    (endpoint_stream_loses_no_update reached stays_active).2.2.1 phase_eq wanted writing_eq
  exact ⟨r, reached, stays_active, phase_eq, wanted, writing_eq, response, response_eq, suits, newest_eq none_wakes⟩

end Current

end EdsReactor

end NixGrpcStore.Reactor
