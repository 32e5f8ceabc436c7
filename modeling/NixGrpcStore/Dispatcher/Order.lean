import NixGrpcStore.Dispatcher.Follows

/-!
# Messages of a client take effect in order

A batch whose Wants are to be looked up in the cache is handed to a pool of threads, while a batch
that needs no lookup is applied at once by the thread of the stream.  The latter may overtake the
former, and the threads of the pool may overtake each other.  A client that waits until its last
batch is applied before it sends the next is served in order.
-/

namespace NixGrpcStore.Dispatcher

open List (append_nil filter_append length_cons map_append mem_cons mem_singleton)
open Sched Remote StateExcept

/-! ## Batches of clients -/

/-- A message that has an effect. -/
def counts : ClientMsg → Bool
  | .want want => want.drvPath ≠ ""
  | .cancel _ => true
  | .empty => false

/-- The message of a client that an event records. -/
def askedBy (client : ClientId) : Event → Option ClientMsg
  | .want other want _ => if other = client then some (.want want) else none
  | .cancel other drvPath => if other = client then some (.cancel drvPath) else none
  | _ => none

/-- The messages of a client that were taken in, oldest first. -/
def applied (client : ClientId) (asked : List Event) : List ClientMsg :=
  (asked.filterMap (askedBy client)).reverse

theorem applied_append (client : ClientId) (more asked : List Event) :
    applied client (more ++ asked) = applied client asked ++ applied client more := by
  simp [applied]

/-- No Want of a batch asks for what its client follows by then. -/
def Fresh (follows : PathKey → Prop) : List ClientMsg → Prop
  | [] => True
  | .want want :: msgs =>
    want.drvPath = "" ∧ Fresh follows msgs ∨
      want.drvPath ≠ "" ∧ ¬ follows (PathKey.ofPath want.drvPath) ∧
        Fresh (fun key => follows key ∨ key = PathKey.ofPath want.drvPath) msgs
  | .cancel drvPath :: msgs => Fresh (fun key => follows key ∧ key ≠ PathKey.ofPath drvPath) msgs
  | .empty :: msgs => Fresh follows msgs

variable {msgs : List ClientMsg}

theorem Fresh.anti {follows fewer : PathKey → Prop} (fresh : Fresh follows msgs)
    (le : ∀ key, fewer key → follows key) : Fresh fewer msgs := by
  induction msgs generalizing follows fewer with
  | nil => trivial
  | cons msg msgs ih =>
    cases msg with
    | want want =>
      rcases fresh with ⟨nameless, fresh⟩ | ⟨named, not_followed, fresh⟩
      · exact .inl ⟨nameless, ih fresh le⟩
      · exact .inr ⟨named, fun followed => not_followed (le _ followed), ih fresh fun key => Or.imp (le key) id⟩
    | cancel drvPath => exact ih fresh fun key => And.imp (le key) id
    | empty => exact ih fresh le

section Batches

variable {world : World} {cfg : Config} {d : State} {client : ClientId}

/-- What the messages of a chunk lead to.  If its Wants are fresh, so are those after it, and the
client follows nothing that it cancelled or was denied last. -/
structure Spoke (client : ClientId) (msgs : List ClientMsg) (more : List Event) (d d' : State) : Prop where
  converses : Converses more d d'
  own : applied client more = msgs.filter counts
  others : ∀ other ≠ client, applied other more = []
  live_le : d'.core.liveCount ≤ d.core.liveCount + msgs.length
  tidy : ∀ rest, Fresh (Follows d.core client) (msgs ++ rest) → Fresh (Follows d'.core client) rest ∧
    ∀ key, lastAsked more client key = some false → ¬ Follows d'.core client key

theorem Spoke.trans {later : List ClientMsg} {more newer : List Event} {d' d'' : State}
    (first : Spoke client msgs more d d') (second : Spoke client later newer d' d'') :
    Spoke client (msgs ++ later) (newer ++ more) d d'' where
  converses := first.converses.trans second.converses
  own := by rw [applied_append, first.own, second.own, filter_append]
  others other other_ne := by rw [applied_append, first.others other other_ne, second.others other other_ne]; rfl
  live_le := by
    have first_le := first.live_le
    have second_le := second.live_le
    rw [List.length_append]
    omega
  tidy rest fresh := by
    rw [List.append_assoc] at fresh
    obtain ⟨mid_fresh, denied⟩ := first.tidy (later ++ rest) fresh
    obtain ⟨rest_fresh, denied_later⟩ := second.tidy rest mid_fresh
    refine ⟨rest_fresh, fun key last => ?_⟩
    rw [lastAsked_append] at last
    cases said : lastAsked newer client key with
    | none =>
      rw [said, Option.none_or] at last
      exact (second.converses.same client key said).not.mpr (denied key last)
    | some kept =>
      rw [said, Option.some_or] at last
      exact denied_later key (said.trans last)

/-- A message that does nothing. -/
theorem spoke_nothing (inv : d.core.Inv) (idle : msgs.filter counts = [])
    (fresh : ∀ rest, Fresh (Follows d.core client) (msgs ++ rest) → Fresh (Follows d.core client) rest) :
    Spoke client msgs [] d d :=
  ⟨(Std.Refl.refl d : Unfollowed d d).converses inv, idle.symm, fun _ _ => rfl, Nat.le_add_right _ _,
    fun rest is_fresh => ⟨fresh rest is_fresh, by simp [lastAsked]⟩⟩

theorem onWant_spoke {want : Want} (inv : d.core.Inv) (room : d.core.liveCount < Core.maxEntries)
    (cached : Bool) :
    ∃ d' more, onWant world cfg client want cached d = .ok () d' ∧ Spoke client [.want want] more d d' := by
  by_cases nameless : want.drvPath = ""
  · refine ⟨d, [], by rw [onWant, if_pos nameless]; rfl, spoke_nothing inv (by simp [counts, nameless]) ?_⟩
    exact fun rest fresh => (fresh.resolve_right fun wants => wants.1 nameless).2
  obtain ⟨d', answer, ran, converses, live_le, refused⟩ :=
    @onWant_converses world cfg d client want inv room nameless cached
  refine ⟨d', _, ran, converses, by simp [applied, askedBy, counts, nameless],
    fun other other_ne => by simp [applied, askedBy, Ne.symm other_ne], live_le, fun rest fresh => ?_⟩
  obtain ⟨-, not_followed, fresh⟩ := fresh.resolve_left fun skips => nameless skips.1
  refine ⟨fresh.anti fun key follows => ?_, fun key last => ?_⟩
  · by_cases own : PathKey.ofPath want.drvPath = key
    · exact .inr own.symm
    · exact .inl ((converses.same client key (by rw [lastAsked_want, if_neg fun both => own both.2])).mp follows)
  · rw [lastAsked_want] at last
    split_ifs at last with own
    rw [← own.2, refused (of_decide_eq_false (Option.some.inj last))]
    exact not_followed

theorem onCancel_spoke (inv : d.core.Inv) (path : String) :
    ∃ d' more, onCancel world client path d = .ok () d' ∧ Spoke client [.cancel path] more d d' := by
  obtain ⟨d', ran, converses, live_le, dropped⟩ := @onCancel_converses world d client inv path
  have own_iff : ∀ key, lastAsked [.cancel client path] client key = none ↔ key ≠ PathKey.ofPath path := by
    intro key
    simpa [lastAsked, aboutIn] using ne_comm
  refine ⟨d', _, ran, converses, by simp [applied, askedBy, counts, List.filter],
    fun other other_ne => by simp [applied, askedBy, Ne.symm other_ne], live_le.trans (Nat.le_succ _),
    fun rest fresh => ⟨Fresh.anti fresh fun key follows => ?_, fun key last => ?_⟩⟩
  · have other : key ≠ PathKey.ofPath path := fun own => dropped (own ▸ follows)
    exact ⟨(converses.same client key ((own_iff key).mpr other)).mp follows, other⟩
  · obtain rfl : key = PathKey.ofPath path := by
      by_contra other
      rw [(own_iff key).mpr other] at last
      cases last
    exact dropped

/-- A chunk for which there is room is taken in as a whole. -/
theorem onClientMsgs_spoke {msgs : List (ClientMsg × Bool)} (inv : d.core.Inv)
    (room : d.core.liveCount + msgs.length ≤ Core.maxEntries) :
    ∃ d' more, onClientMsgs world cfg client msgs d = .ok () d' ∧ Spoke client (msgs.map Prod.fst) more d d' := by
  induction msgs generalizing d with
  | nil => exact ⟨d, [], rfl, spoke_nothing inv rfl fun _ => id⟩
  | cons msg msgs ih =>
    rw [length_cons] at room
    obtain ⟨mid, more, ran, spoke⟩ : ∃ mid more, onClientMsg world cfg client msg d = .ok () mid ∧
        Spoke client [msg.1] more d mid := by
      rcases msg with ⟨want | path | _, cached⟩
      · exact onWant_spoke inv (by omega) cached
      · exact onCancel_spoke inv path
      · exact ⟨d, [], rfl, spoke_nothing inv rfl fun _ => id⟩
    have live_le := spoke.live_le
    rw [List.length_singleton] at live_le
    obtain ⟨d', newer, ran', spoke'⟩ := ih spoke.converses.inv (by omega)
    exact ⟨d', newer ++ more, (bind_of_ok ran _).trans ran', spoke.trans spoke'⟩

end Batches

/-! ## Runs -/

/-- What is left of the batches of a client. -/
def jobsOf (client : ClientId) (x : Dispatcher) : List (List ClientMsg) :=
  (x.lookupQueue.filter (·.client = client)).map LookupJob.msgs ++
    (x.applying.filter (·.client = client)).map fun job => job.msgs.map Prod.fst

/-- The messages of a client that wait to be taken in. -/
def pending (client : ClientId) (x : Dispatcher) : List ClientMsg :=
  (jobsOf client x).flatten.filter counts

/-- A call that sends a batch comes when nothing of that client is under way.  The table has room for
a chunk that is applied, and for what Hellos report. -/
def Orderly (x : Dispatcher) : Call → Prop
  | .clientMsgs client _ _ => jobsOf client x = []
  | .applyChunk index => ∀ job, x.applying[index]? = some job →
      x.state.core.liveCount + (job.msgs.take chunk).length ≤ Core.maxEntries
  | .workerMsgs _ msgs => x.state.core.liveCount + (msgs.map roomFor).sum ≤ Core.maxEntries
  | _ => True

/-- A call of a run: the surroundings, what it found, and the messages of clients that it took in. -/
structure Turn where
  call : Call
  world : World
  found : Dispatcher
  events : List Event

/-- An orderly call, whether or not it throws. -/
def OrderlyStep (cfg : Config) (x : Dispatcher) (out : List Turn) (x' : Dispatcher) : Prop :=
  ∃ call world events, out = [⟨call, world, x, events⟩] ∧ call.allowed cfg x ∧ Orderly x call ∧
    x' = after (call.perform world cfg x) ∧ x'.state.asked = events ++ x.state.asked

/-- The states of the runs in which all calls are orderly, with what happened so far. -/
abbrev OrderlyReached (cfg : Config) : Dispatcher → List Turn → Prop :=
  Run.Reached (fun x => ∃ config : Sched.Config, x = { state := { core := { cfg := config } } })
    (OrderlyStep cfg)

/-- The messages of a client in a call. -/
def sentBy (client : ClientId) : Call → List ClientMsg
  | .clientMsgs other msgs _ => if other = client then msgs.filter counts else []
  | _ => []

/-- The messages a client has sent, oldest first. -/
def sent (client : ClientId) (history : List Turn) : List ClientMsg :=
  history.flatMap fun turn => sentBy client turn.call

/-- No Want of a client asks for what it follows by then. -/
def Turn.Fresh (client : ClientId) (turn : Turn) : Prop :=
  match turn.call with
  | .clientMsgs other msgs _ => other = client → Dispatcher.Fresh (Follows turn.found.state.core client) msgs
  | _ => True

/-- A Done of the worker that builds a derivation came in. -/
def Turn.Ends (cfg : Config) (turn : Turn) (key : PathKey) : Prop :=
  match turn.call with
  | .workerMsgs sid msgs => EndsIn turn.world cfg sid key msgs turn.found.state
  | _ => False

/-- A Done ended a derivation after the last message of a client about it. -/
def DoneSince (cfg : Config) (history : List Turn) (client : ClientId) (key : PathKey) : Prop :=
  ∃ before turn later, history = before ++ turn :: later ∧ turn.Ends cfg key ∧
    ∀ item ∈ later, lastAsked item.events client key = none

/-- What one call does for the clients. -/
structure Advances (cfg : Config) (turn : Turn) (x' : Dispatcher) : Prop where
  inv : x'.state.core.Inv
  later : turn.found.state.nextClient ≤ x'.state.nextClient
  gone_sub : turn.found.state.gone ⊆ x'.state.gone
  new : ∀ client ∈ x'.state.clients, client ∉ turn.found.state.clients → turn.found.state.nextClient ≤ client
  single : ∀ client, (jobsOf client x').length ≤ 1
  silent : ∀ client, client ∈ x'.state.gone ∨ x'.state.nextClient ≤ client → applied client turn.events = []
  whole : ∀ client ∉ x'.state.gone,
    applied client turn.events ++ pending client x' = pending client turn.found ++ sentBy client turn.call
  follows : ∀ client key, lastAsked turn.events client key = some true → Follows x'.state.core client key
  stays : ∀ client ∈ x'.state.clients, ∀ key, lastAsked turn.events client key = none →
    Follows turn.found.state.core client key → Follows x'.state.core client key ∨ turn.Ends cfg key
  fewer : ∀ client key, lastAsked turn.events client key = none →
    Follows x'.state.core client key → Follows turn.found.state.core client key
  tidy : ∀ client, turn.Fresh client →
    (∀ msgs ∈ jobsOf client turn.found, Fresh (Follows turn.found.state.core client) msgs) →
    (∀ msgs ∈ jobsOf client x', Fresh (Follows x'.state.core client) msgs) ∧
      ∀ key, lastAsked turn.events client key = some false → ¬ Follows x'.state.core client key

/-- What holds in orderly runs. -/
structure InOrder (cfg : Config) (x : Dispatcher) (history : List Turn) : Prop where
  attended : Attended x
  inv : x.state.core.Inv
  single : ∀ client, (jobsOf client x).length ≤ 1
  unborn : ∀ client, x.state.nextClient ≤ client → applied client x.state.asked = []
  initial : ∀ client, applied client x.state.asked <+: sent client history
  whole : ∀ client ∉ x.state.gone,
    applied client x.state.asked ++ pending client x = sent client history
  follows : ∀ client ∈ x.state.clients, ∀ key, lastAsked x.state.asked client key = some true →
    Follows x.state.core client key ∨ DoneSince cfg history client key
  tidy : ∀ client, (∀ turn ∈ history, turn.Fresh client) →
    (∀ msgs ∈ jobsOf client x, Fresh (Follows x.state.core client) msgs) ∧
      ∀ key, Follows x.state.core client key → lastAsked x.state.asked client key = some true

variable {client : ClientId}

theorem lastAsked_of_applied {asked : List Event} (none_applied : applied client asked = [])
    {key : PathKey} : lastAsked asked client key = none := by
  have silent : ∀ event ∈ asked, askedBy client event = none := by
    simpa [applied, List.filterMap_eq_nil_iff] using none_applied
  refine List.findSome?_eq_none_iff.mpr fun event mem => ?_
  have unasked := silent event mem
  match event with
  | .want other want answer =>
    simp only [askedBy, ite_eq_right_iff, reduceCtorEq, imp_false] at unasked
    simp [aboutIn, unasked]
  | .cancel other drvPath =>
    simp only [askedBy, ite_eq_right_iff, reduceCtorEq, imp_false] at unasked
    simp [aboutIn, unasked]
  | .toClient _ _ | .toSession _ _ _ | .hello _ _ | .placed _ _ => rfl

section Calls

variable {world : World} {cfg : Config} {x x' : Dispatcher} {history : List Turn} {call : Call}

theorem DoneSince.later {key : PathKey} (since : DoneSince cfg history client key) {turn : Turn}
    (silent : lastAsked turn.events client key = none) :
    DoneSince cfg (history ++ [turn]) client key := by
  obtain ⟨before, done, later, rfl, ends, quiet⟩ := since
  refine ⟨before, done, later ++ [turn], by simp, ends, fun other mem => ?_⟩
  rcases List.mem_append.mp mem with mem | mem
  · exact quiet other mem
  · rw [mem_singleton.mp mem]
    exact silent

/-- What one call does for the clients keeps everything in order. -/
theorem Advances.inOrder {events : List Event} (advances : Advances cfg ⟨call, world, x, events⟩ x')
    (order : InOrder cfg x history) (asked_eq : x'.state.asked = events ++ x.state.asked)
    (attended : Attended x') : InOrder cfg x' (history ++ [⟨call, world, x, events⟩]) := by
  have sent_eq : ∀ client, sent client (history ++ [⟨call, world, x, events⟩]) =
      sent client history ++ sentBy client call := by
    intro client
    simp [sent]
  have whole : ∀ client ∉ x'.state.gone, applied client x'.state.asked ++ pending client x' =
      sent client (history ++ [⟨call, world, x, events⟩]) := by
    intro client here
    rw [asked_eq, applied_append, List.append_assoc, advances.whole client here, ← List.append_assoc,
      order.whole client fun gone => here (advances.gone_sub gone), sent_eq]
  refine ⟨attended, advances.inv, advances.single, fun client unborn => ?_, fun client => ?_, whole,
    fun client connected key last => ?_, fun client fresh => ?_⟩
  · rw [asked_eq, applied_append, advances.silent client (.inr unborn),
      order.unborn client (advances.later.trans unborn)]
    rfl
  · by_cases gone : client ∈ x'.state.gone
    · rw [asked_eq, applied_append, advances.silent client (.inl gone), append_nil, sent_eq]
      exact (order.initial client).trans (List.prefix_append _ _)
    · exact ⟨_, whole client gone⟩
  · rw [asked_eq, lastAsked_append] at last
    cases said : lastAsked events client key with
    | some kept =>
      rw [said, Option.some_or] at last
      exact .inl (advances.follows client key (said.trans last))
    | none =>
      rw [said, Option.none_or] at last
      by_cases was : client ∈ x.state.clients
      · rcases order.follows client was key last with followed | since
        · refine (advances.stays client connected key said followed).imp id fun ends => ?_
          exact ⟨history, _, [], rfl, ends, by simp⟩
        · exact .inr (since.later said)
      · rw [lastAsked_of_applied (order.unborn client (advances.new client connected was))] at last
        cases last
  · obtain ⟨jobs_fresh, bound⟩ := order.tidy client fun turn mem => fresh turn (List.mem_append_left _ mem)
    obtain ⟨jobs_fresh', denied⟩ := advances.tidy client
      (fresh _ (List.mem_append_right _ (List.mem_singleton_self _))) jobs_fresh
    refine ⟨jobs_fresh', fun key followed => ?_⟩
    rw [asked_eq, lastAsked_append]
    cases said : lastAsked events client key with
    | none =>
      rw [Option.none_or]
      exact bound key (advances.fewer client key said followed)
    | some kept =>
      cases kept with
      | true => rfl
      | false => exact absurd followed (denied key said)

/-! ## Calls -/

section Quiet

variable (order : InOrder cfg x history)
include order

/-- A call that takes nothing in and leaves the batches alone. -/
theorem advances_of_jobs_eq (inv : x'.state.core.Inv)
    (jobs_eq : ∀ client, jobsOf client x' = jobsOf client x) (unsent : ∀ client, sentBy client call = [])
    (later : x.state.nextClient ≤ x'.state.nextClient) (gone_sub : x.state.gone ⊆ x'.state.gone)
    (new : ∀ client ∈ x'.state.clients, client ∉ x.state.clients → x.state.nextClient ≤ client)
    (fewer : ∀ client key, Follows x'.state.core client key → Follows x.state.core client key)
    (stays : ∀ client ∈ x'.state.clients, ∀ key, Follows x.state.core client key →
      Follows x'.state.core client key ∨ Turn.Ends cfg ⟨call, world, x, []⟩ key) :
    Advances cfg ⟨call, world, x, []⟩ x' where
  inv := inv
  later := later
  gone_sub := gone_sub
  new := new
  single client := by
    rw [jobs_eq]
    exact order.single client
  silent _ _ := rfl
  whole client _ := by
    rw [pending, jobs_eq, unsent, append_nil]
    rfl
  follows _ _ said := by simp [lastAsked] at said
  stays client connected key _ := stays client connected key
  fewer client key _ := fewer client key
  tidy client _ fresh := by
    refine ⟨fun msgs mem => ?_, by simp [lastAsked]⟩
    rw [jobs_eq] at mem
    exact (fresh msgs mem).anti (fewer client)

/-- A section that leaves the clients alone. -/
theorem locked_advances {m : LockedM Unit} (perform_eq : call.perform world cfg = withLock m)
    (unsent : ∀ client, sentBy client call = []) (same : SameClients x.state (after (m x.state)))
    (loosens : Loosens (Turn.Ends cfg ⟨call, world, x, []⟩) x.state (after (m x.state))) :
    Advances cfg ⟨call, world, x, []⟩ (after (call.perform world cfg x)) ∧
      (after (call.perform world cfg x)).state.asked = x.state.asked := by
  rw [perform_eq, after_withLock]
  refine ⟨advances_of_jobs_eq order loosens.inv (fun _ => rfl) unsent same.nextClient_eq.ge ?_
    (fun client mem other => ?_)
    loosens.fewer fun client _ => loosens.stays client, loosens.asked_eq⟩
  · exact same.gone_eq ▸ List.Subset.refl _
  · exact absurd (same.clients_eq ▸ mem) other

theorem connectClient_advances :
    Advances cfg ⟨.connectClient, world, x, []⟩ (after (Call.perform world cfg .connectClient x)) := by
  refine advances_of_jobs_eq order order.inv (fun _ => rfl) (fun _ => rfl) (Nat.le_succ _) (List.Subset.refl _)
    (fun client mem other => ?_) (fun _ _ => id) fun _ _ _ => .inl
  rcases mem_cons.mp mem with rfl | mem
  · exact le_rfl
  · exact absurd mem other

/-- A client that leaves takes nobody else along. -/
theorem clientGone_advances (client : ClientId) :
    Advances cfg ⟨.clientGone client, world, x, []⟩ (after (Call.perform world cfg (.clientGone client) x)) ∧
      (after (Call.perform world cfg (.clientGone client) x)).state.asked = x.state.asked := by
  obtain ⟨s', revokes, core_ran, -, ran⟩ :=
    @clientGone_left world x.state order.attended.bound order.attended.traced client
  have wanes := @waning_clientGone (fun other _ => other = client) (fun _ => False) client (fun _ => rfl)
    x.state.core order.inv
  rw [core_ran, after_ok] at wanes
  rw [Call.perform, after_withLock, ran, after_ok]
  refine ⟨advances_of_jobs_eq order wanes.inv (fun _ => rfl) (fun _ => rfl) le_rfl (List.subset_cons_self _ _)
    (fun other mem unknown => ?_) (fun _ _ => wanes.fewer) fun other mem key followed => .inl ?_, rfl⟩
  · exact absurd (List.mem_of_mem_filter mem) unknown
  · have other_ne : other ≠ client := by simpa using (List.mem_filter.mp mem).2
    exact (wanes.follows followed).resolve_right fun gone => other_ne (gone.resolve_right id)

/-- A call after which a batch is the only one of its client. -/
theorem advances_of_batch
    (state_eq : x'.state = x.state) (others : ∀ other ≠ client, jobsOf other x' = jobsOf other x)
    (own : jobsOf client x' = [msgs] ∨ msgs = [] ∧ jobsOf client x' = [])
    (fresh : Turn.Fresh client ⟨call, world, x, []⟩ →
      (∀ queued ∈ jobsOf client x, Fresh (Follows x.state.core client) queued) →
        Fresh (Follows x.state.core client) msgs)
    (pending_eq : pending client x ++ sentBy client call = msgs.filter counts)
    (unsent : ∀ other ≠ client, sentBy other call = []) : Advances cfg ⟨call, world, x, []⟩ x' where
  inv := state_eq ▸ order.inv
  later := by rw [state_eq]
  gone_sub := by rw [state_eq]; exact List.Subset.refl _
  new other mem unknown := by
    rw [state_eq] at mem
    exact absurd mem unknown
  single other := by
    by_cases same : other = client
    · rw [same]
      rcases own with own | ⟨-, own⟩
      · simp [own]
      · simp [own]
    · rw [others other same]
      exact order.single other
  silent _ _ := rfl
  whole other _ := by
    by_cases same : other = client
    · subst same
      rw [pending_eq, pending]
      rcases own with own | ⟨rfl, own⟩
      · simp [own, applied]
      · simp [own, applied]
    · rw [pending, others other same, unsent other same, append_nil]
      rfl
  follows _ _ said := by simp [lastAsked] at said
  stays _ _ _ _ followed := .inl (state_eq ▸ followed)
  fewer _ _ _ followed := state_eq ▸ followed
  tidy other turn_fresh jobs_fresh := by
    refine ⟨fun queued mem => ?_, by simp [lastAsked]⟩
    rw [state_eq]
    by_cases same : other = client
    · subst same
      rcases own with own | ⟨-, own⟩
      · rw [own, mem_singleton] at mem
        rw [mem]
        exact fresh turn_fresh jobs_fresh
      · rw [own] at mem
        cases mem
    · rw [others other same] at mem
      exact jobs_fresh queued mem

end Quiet

theorem map_fst_zip_lookup (present : List String → Option (List String)) (msgs : List ClientMsg) :
    (msgs.zip (lookup cfg present msgs)).map Prod.fst = msgs := by
  refine List.map_fst_zip ?_
  unfold lookup
  dsimp only
  split_ifs
  · simp
  · cases present (msgs.flatMap lookupKeys) with
    | none => simp
    | some found => simp

/-- A batch is the only one of its client once it is started. -/
theorem startApplying_jobs {job : Applying} (alone : jobsOf job.client x = []) :
    (after (startApplying job x)).state = x.state ∧
      (∀ client ≠ job.client, jobsOf client (after (startApplying job x)) = jobsOf client x) ∧
      (jobsOf job.client (after (startApplying job x)) = [job.msgs.map Prod.fst] ∨
        job.msgs.map Prod.fst = [] ∧ jobsOf job.client (after (startApplying job x)) = []) := by
  unfold startApplying
  split_ifs with empty
  · exact ⟨rfl, fun _ _ => rfl, .inr ⟨by rw [empty]; rfl, alone⟩⟩
  · refine ⟨rfl, fun client other => ?_, .inl ?_⟩
    · simp [jobsOf, filter_append, Ne.symm other]
    · rw [jobsOf, List.append_eq_nil_iff] at alone
      simp only [modify_apply, after_ok, jobsOf, filter_append, map_append, alone.1, alone.2]
      simp

variable {present : List String → Option (List String)}

theorem clientMsgs_advances (order : InOrder cfg x history) (alone : jobsOf client x = []) :
    Advances cfg ⟨.clientMsgs client msgs present, world, x, []⟩
      (after (Call.perform world cfg (.clientMsgs client msgs present) x)) := by
  have sends : pending client x ++ sentBy client (.clientMsgs client msgs present) = msgs.filter counts := by
    rw [pending, alone, sentBy, if_pos rfl]
    rfl
  have unsent : ∀ other ≠ client, sentBy other (.clientMsgs client msgs present) = [] :=
    fun other other_ne => if_neg (Ne.symm other_ne)
  rw [Call.perform, Dispatcher.clientMsgs]
  split_ifs
  · refine advances_of_batch order rfl (fun other other_ne => ?_) (.inl ?_) (fun fresh _ => fresh rfl) sends unsent
    · simp [jobsOf, filter_append, Ne.symm other_ne]
    · rw [jobsOf, List.append_eq_nil_iff] at alone
      simp only [after_ok, modify_apply, jobsOf, filter_append, map_append, alone.1, alone.2]
      simp
  · obtain ⟨state_eq, others, own⟩ := @startApplying_jobs _
      { client, msgs := msgs.zip (lookup cfg present msgs), pooled := false } alone
    rw [map_fst_zip_lookup] at own
    exact advances_of_batch order state_eq others own (fun fresh _ => fresh rfl) sends unsent

theorem takeJob_advances (order : InOrder cfg x history) :
    Advances cfg ⟨.takeJob present, world, x, []⟩ (after (Call.perform world cfg (.takeJob present) x)) := by
  rw [Call.perform, Dispatcher.takeJob, bind_get_apply]
  cases queue_eq : x.lookupQueue with
  | nil =>
    exact advances_of_jobs_eq order order.inv (fun _ => rfl) (fun _ => rfl) le_rfl (List.Subset.refl _)
      (fun client mem other => absurd mem other) (fun _ _ => id) fun _ _ _ => .inl
  | cons job queue =>
    simp only [bind_modify_apply]
    have was : jobsOf job.client x = job.msgs :: jobsOf job.client { x with lookupQueue := queue } := by
      simp [jobsOf, queue_eq]
    have alone : jobsOf job.client { x with lookupQueue := queue } = [] := by
      have single := order.single job.client
      rw [was, length_cons] at single
      exact List.eq_nil_of_length_eq_zero (by omega)
    have unchanged : ∀ other ≠ job.client,
        jobsOf other { x with lookupQueue := queue } = jobsOf other x := by
      intro other other_ne
      simp [jobsOf, queue_eq, Ne.symm other_ne]
    obtain ⟨state_eq, others, own⟩ := @startApplying_jobs _
      { client := job.client, msgs := job.msgs.zip (lookup cfg present job.msgs), pooled := true } alone
    rw [map_fst_zip_lookup] at own
    rw [alone] at was
    refine advances_of_batch order state_eq
      (fun other other_ne => (others other other_ne).trans (unchanged other other_ne)) own
      (fun _ fresh => fresh job.msgs (by simp [was])) ?_ fun _ _ => rfl
    rw [pending, was]
    simp [sentBy]

/-- What is left of the batches once one of them is taken out. -/
theorem jobsOf_eraseIdx {index : ℕ} {job : Applying} (found : x.applying[index]? = some job)
    (single : (jobsOf job.client x).length ≤ 1) :
    jobsOf job.client x = [job.msgs.map Prod.fst] ∧
      jobsOf job.client { x with applying := x.applying.eraseIdx index } = [] ∧
      ∀ client ≠ job.client,
        jobsOf client { x with applying := x.applying.eraseIdx index } = jobsOf client x := by
  obtain ⟨index_lt, get_eq⟩ := List.getElem?_eq_some_iff.mp found
  have split : x.applying = x.applying.take index ++ job :: x.applying.drop (index + 1) := by
    rw [← get_eq, List.getElem_cons_drop, List.take_append_drop]
  have erased : x.applying.eraseIdx index = x.applying.take index ++ x.applying.drop (index + 1) :=
    List.eraseIdx_eq_take_drop_succ ..
  have others : ∀ client ≠ job.client,
      jobsOf client { x with applying := x.applying.eraseIdx index } = jobsOf client x := by
    intro client other
    rw [jobsOf, jobsOf, erased]
    conv_rhs => rw [split]
    simp [filter_append, Ne.symm other]
  rw [jobsOf, split] at single
  simp only [filter_append, List.filter_cons, decide_true, if_true, map_append, List.map_cons,
    List.length_append, length_cons, List.length_map] at single
  have no_queue : x.lookupQueue.filter (·.client = job.client) = [] := List.eq_nil_of_length_eq_zero (by omega)
  have no_first : (x.applying.take index).filter (·.client = job.client) = [] :=
    List.eq_nil_of_length_eq_zero (by omega)
  have no_last : (x.applying.drop (index + 1)).filter (·.client = job.client) = [] :=
    List.eq_nil_of_length_eq_zero (by omega)
  refine ⟨?_, ?_, others⟩
  · rw [jobsOf, split]
    simp [filter_append, no_queue, no_first, no_last]
  · rw [jobsOf, erased]
    simp [filter_append, no_queue, no_first, no_last]

/-- A chunk is the next part of what its client sent. -/
theorem chunk_advances {index : ℕ} {job : Applying} {events : List Event}
    (order : InOrder cfg x history) (found : x.applying[index]? = some job)
    (here : job.client ∈ x.state.clients) {d : State}
    (spoke : Spoke job.client ((job.msgs.take chunk).map Prod.fst) events x.state d)
    (peers : SamePeers x.state d) (released : List Deferred) :
    Advances cfg ⟨.applyChunk index, world, x, events⟩
      (after (startApplying { job with msgs := job.msgs.drop chunk }
        { x with
          state := { d with deferred := [] }
          applying := x.applying.eraseIdx index
          released })) := by
  obtain ⟨was, alone, unchanged⟩ := jobsOf_eraseIdx found (order.single job.client)
  obtain ⟨state_eq, others, own⟩ := @startApplying_jobs
    { x with
      state := { d with deferred := [] }
      applying := x.applying.eraseIdx index
      released } { job with msgs := job.msgs.drop chunk } alone
  generalize after (startApplying _ _) = x' at state_eq others own ⊢
  have jobs_eq : ∀ other ≠ job.client, jobsOf other x' = jobsOf other x :=
    fun other other_ne => (others other other_ne).trans (unchanged other other_ne)
  have core_eq : x'.state.core = d.core := by rw [state_eq]
  have clients_eq : x'.state.clients = x.state.clients := by rw [state_eq, ← peers.clients_eq]
  have next_eq : x'.state.nextClient = x.state.nextClient := by rw [state_eq, ← peers.nextClient_eq]
  have gone_eq : x'.state.gone = x.state.gone := by rw [state_eq, ← peers.gone_eq]
  have parts : job.msgs.map Prod.fst =
      (job.msgs.take chunk).map Prod.fst ++ (job.msgs.drop chunk).map Prod.fst := by
    rw [← map_append, List.take_append_drop]
  exact {
    inv := core_eq ▸ spoke.converses.inv
    later := next_eq.ge
    gone_sub := gone_eq ▸ List.Subset.refl _
    new := fun other mem unknown => absurd (clients_eq ▸ mem) unknown
    single := fun other => by
      by_cases same : other = job.client
      · rw [same]
        rcases own with own | ⟨-, own⟩
        · simp [own]
        · simp [own]
      · rw [jobs_eq other same]
        exact order.single other
    silent := fun other absent => by
      rw [gone_eq, next_eq] at absent
      refine spoke.others other fun same => ?_
      obtain ⟨not_gone, known⟩ := order.attended.present job.client here
      exact absurd (same ▸ absent) (not_or.mpr ⟨not_gone, not_le.mpr known⟩)
    whole := fun other _ => by
      rw [show sentBy other (.applyChunk index) = [] from rfl, append_nil]
      by_cases same : other = job.client
      · subst same
        rw [spoke.own, pending, pending, was]
        rcases own with own | ⟨empty, own⟩
        · simp only [own, parts, List.flatten_cons, List.flatten_nil, append_nil, filter_append]
        · dsimp only at empty
          simp only [own, parts, empty, List.flatten_cons, List.flatten_nil, append_nil, List.filter_nil]
      · rw [spoke.others other same, pending, jobs_eq other same]
        rfl
    follows := fun other key said => core_eq ▸ spoke.converses.kept other key said
    stays := fun other _ key said followed => .inl (core_eq ▸ (spoke.converses.same other key said).mpr followed)
    fewer := fun other key said followed => (spoke.converses.same other key said).mp (core_eq ▸ followed)
    tidy := fun other _ fresh => by
      rw [core_eq]
      by_cases same : other = job.client
      · subst same
        have job_fresh := fresh (job.msgs.map Prod.fst) (by simp [was])
        rw [parts] at job_fresh
        obtain ⟨rest_fresh, denied⟩ := spoke.tidy _ job_fresh
        refine ⟨fun queued mem => ?_, denied⟩
        rcases own with own | ⟨-, own⟩
        · rw [own, mem_singleton] at mem
          rw [mem]
          exact rest_fresh
        · rw [own] at mem
          cases mem
      · have unsaid : ∀ key, lastAsked events other key = none := fun key =>
          lastAsked_of_applied (spoke.others other same)
        refine ⟨fun queued mem => ?_, fun key said => ?_⟩
        · rw [jobs_eq other same] at mem
          exact (fresh queued mem).anti fun key => (spoke.converses.same other key (unsaid key)).mp
        · rw [unsaid] at said
          cases said }

/-- The chunk of a client that left is dropped. -/
theorem dropChunk_advances {index : ℕ} {job : Applying} (order : InOrder cfg x history)
    (found : x.applying[index]? = some job) (gone : job.client ∈ x.state.gone) :
    Advances cfg ⟨.applyChunk index, world, x, []⟩ { x with applying := x.applying.eraseIdx index } := by
  obtain ⟨-, alone, unchanged⟩ := jobsOf_eraseIdx found (order.single job.client)
  have jobs_sub : ∀ other, jobsOf other { x with applying := x.applying.eraseIdx index } ⊆ jobsOf other x := by
    intro other
    by_cases same : other = job.client
    · rw [same, alone]
      exact List.nil_subset _
    · rw [unchanged other same]
      exact List.Subset.refl _
  refine ⟨order.inv, le_rfl, List.Subset.refl _, fun client mem other => absurd mem other, fun other => ?_,
    fun _ _ => rfl, fun other here => ?_, fun _ _ said => ?_, fun _ _ _ _ => .inl, fun _ _ _ => id,
    fun other _ fresh => ⟨fun queued mem => fresh queued (jobs_sub other mem), by simp [lastAsked]⟩⟩
  · by_cases same : other = job.client
    · rw [same, alone]
      exact Nat.zero_le 1
    · rw [unchanged other same]
      exact order.single other
  · have other_ne : other ≠ job.client := fun same => here (same ▸ gone)
    rw [pending, unchanged other other_ne, pending]
    exact (append_nil _).symm
  · simp [lastAsked] at said

theorem applyChunk_advances {index : ℕ} (order : InOrder cfg x history)
    (orderly : Orderly x (.applyChunk index)) :
    ∃ events, Advances cfg ⟨.applyChunk index, world, x, events⟩
        (after (Call.perform world cfg (.applyChunk index) x)) ∧
      (after (Call.perform world cfg (.applyChunk index) x)).state.asked = events ++ x.state.asked := by
  rw [Call.perform, Dispatcher.applyChunk, bind_get_apply]
  cases found : x.applying[index]? with
  | none =>
    refine ⟨[], advances_of_jobs_eq order order.inv (fun _ => rfl) (fun _ => rfl) le_rfl (List.Subset.refl _)
      (fun client mem other => absurd mem other) (fun _ _ => id) fun _ _ _ => .inl, rfl⟩
  | some job =>
    simp only [bind_modify_apply, bind_get_apply]
    by_cases gone : job.client ∈ x.state.gone
    · rw [if_pos gone]
      exact ⟨[], dropChunk_advances order found gone, rfl⟩
    rw [if_neg gone]
    have here := (order.attended.applied job (List.mem_of_getElem? found)).resolve_right gone
    obtain ⟨d, events, took, spoke⟩ :=
      @onClientMsgs_spoke world cfg x.state job.client (job.msgs.take chunk) order.inv (orderly job found)
    have advances := @chunk_advances world cfg x history index job events order found here d spoke
      ((samePeers_onClientMsgs job.client _).ok took) (d.deferred ++ x.released)
    obtain ⟨next, started, state_eq, -⟩ := startApplying_ok { job with msgs := job.msgs.drop chunk }
      { x with
        state := { d with deferred := [] }
        applying := x.applying.eraseIdx index
        released := d.deferred ++ x.released }
    rw [started, after_ok] at advances
    have ran : (do
        withLock (onClientMsgs world cfg job.client (job.msgs.take chunk))
        startApplying { job with msgs := job.msgs.drop chunk })
        { x with applying := x.applying.eraseIdx index } = .ok () next :=
      (bind_of_ok (withLock_of_ok (x := { x with applying := x.applying.eraseIdx index }) took) _).trans started
    have asked_eq : next.state.asked = events ++ x.state.asked := by
      rw [state_eq]
      exact spoke.converses.asked_eq
    split_ifs
    · rw [caught, ran]
      exact ⟨events, advances, asked_eq⟩
    · rw [ran]
      exact ⟨events, advances, asked_eq⟩

/-- Every orderly call keeps everything in order. -/
theorem Call.advances (order : InOrder cfg x history) (orderly : Orderly x call) :
    ∃ events, Advances cfg ⟨call, world, x, events⟩ (after (call.perform world cfg x)) ∧
      (after (call.perform world cfg x)).state.asked = events ++ x.state.asked := by
  have untouched : ∀ {m : LockedM Unit}, call.perform world cfg = withLock m → (∀ client, sentBy client call = []) →
      SameClients x.state (after (m x.state)) → Unfollowed x.state (after (m x.state)) →
      ∃ events, Advances cfg ⟨call, world, x, events⟩ (after (call.perform world cfg x)) ∧
        (after (call.perform world cfg x)).state.asked = events ++ x.state.asked :=
    fun perform_eq unsent same unfollowed =>
      ⟨[], locked_advances order perform_eq unsent same (unfollowed.loosens order.inv)⟩
  have silent : (∀ m, ¬call.Runs world cfg x m) → (after (call.perform world cfg x)).state.asked = x.state.asked := by
    intro none_runs
    rcases call.outcome world cfg x with ⟨x', ran, idles⟩ | ⟨m, runs, -⟩
    · rw [ran, after_ok, State.asked, idles.log_eq, State.asked]
    · exact absurd runs (none_runs m)
  cases call with
  | connectClient => exact ⟨[], connectClient_advances order, rfl⟩
  | clientMsgs client msgs present =>
    exact ⟨[], clientMsgs_advances order orderly, silent fun _ runs => by cases runs⟩
  | takeJob present =>
    exact ⟨[], takeJob_advances order, silent fun _ runs => by cases runs⟩
  | applyChunk index => exact applyChunk_advances order orderly
  | clientGone client => exact ⟨[], clientGone_advances order client⟩
  | workerMsgs sid msgs =>
    exact ⟨[], locked_advances order rfl (fun _ => rfl) (thins_workerMsgs sid msgs x.state).sameClients
      (workerMsgs_loosens order.inv orderly)⟩
  | workerGone sid =>
    exact untouched rfl (fun _ => rfl) (thins_workerGone sid x.state).sameClients (unfollowed_workerGone sid x.state)
  | revokeOrphans =>
    exact untouched rfl (fun _ => rfl) (samePeers_revokeOrphans x.state).sameClients (unfollowed_revokeOrphans x.state)
  | restarting =>
    exact untouched rfl (fun _ => rfl) (framed_samePeers.restarting x.state).sameClients
      (framed_unfollowed.restarting x.state)
  | serving => exact untouched rfl (fun _ => rfl) ⟨rfl, rfl, rfl⟩ (unfollowed_of_core_eq rfl rfl)
  | watchMembership =>
    exact ⟨[], advances_of_jobs_eq order order.inv (fun _ => rfl) (fun _ => rfl) le_rfl (List.Subset.refl _)
      (fun client mem other => absurd mem other) (fun _ _ => id) fun _ _ _ => .inl, rfl⟩
  | unwatchMembership watcher =>
    exact untouched rfl (fun _ => rfl) ⟨rfl, rfl, rfl⟩ (unfollowed_of_core_eq rfl rfl)

theorem OrderlyReached.inOrder (reached : OrderlyReached cfg x history) :
    InOrder cfg x history := by
  refine reached.invariant (P := InOrder cfg) ?_ ?_
  · rintro _ ⟨config, rfl⟩
    refine ⟨@Attempted.attended cfg _ [] (.start ⟨config, rfl⟩), Core.inv_empty config,
      fun _ => Nat.zero_le 1, fun _ _ => rfl, fun _ => List.nil_prefix, fun _ _ => rfl, by simp,
        fun _ _ => ⟨by simp [jobsOf], ?_⟩⟩
    rintro key ⟨drv, ent, live, -⟩
    simp [Core.entry] at live
  · rintro x history _ x' order ⟨call, world, events, rfl, allowed, orderly, rfl, asked_eq⟩
    obtain ⟨events', advances, asked_eq'⟩ := @Call.advances world cfg x history call order orderly
    obtain rfl : events' = events := List.append_cancel_right (asked_eq'.symm.trans asked_eq)
    exact advances.inOrder order asked_eq (order.attended.call allowed)

end Calls

/-- In runs of orderly calls the messages of every client are taken in in the order it sent them.
Once nothing of a connected client is under way, all were, and it follows the derivations for which
its last message was a Want that was kept, but for those that the Done of their worker has ended
since.  It follows no others if it wants nothing that it follows already. -/
theorem messages_in_order {cfg : Config} {x : Dispatcher} {history : List Turn}
    (reached : OrderlyReached cfg x history) (client : ClientId) :
    applied client x.state.asked <+: sent client history ∧
    (client ∈ x.state.clients → pending client x = [] → applied client x.state.asked = sent client history ∧
      (∀ key, lastAsked x.state.asked client key = some true →
        Follows x.state.core client key ∨ DoneSince cfg history client key) ∧
      ((∀ turn ∈ history, turn.Fresh client) → ∀ key, Follows x.state.core client key →
        lastAsked x.state.asked client key = some true)) := by
  have order := reached.inOrder
  refine ⟨order.initial client, fun connected nothing => ⟨?_, order.follows client connected,
    fun fresh => (order.tidy client fresh).2⟩⟩
  have here := (order.attended.present client connected).1
  rw [← order.whole client here, nothing, append_nil]

/-- A scheduler with a shared cache. -/
def shared : Config := { uncached with present := true }

/-- A Want that is looked up in the cache. -/
def lookedUp : Want := { drvPath := "a.drv", outKeys := ["a"] }

/-- The state after a call in obliging surroundings. -/
def next (x : Dispatcher) (call : Call) : Dispatcher := after (call.perform .obliging shared x)

/-- The turns of calls in obliging surroundings that take in the given messages. -/
def turnsFrom : Dispatcher → List (Call × List Event) → List Turn
  | _, [] => []
  | x, (call, events) :: calls => ⟨call, .obliging, x, events⟩ :: turnsFrom (next x call) calls

instance (x : Dispatcher) : DecidablePred (Orderly x)
  | .clientMsgs client _ _ => inferInstanceAs (Decidable (jobsOf client x = []))
  | .applyChunk index => decidable_of_iff
      ((x.applying[index]?).all fun job =>
        decide (x.state.core.liveCount + (job.msgs.take chunk).length ≤ Core.maxEntries))
      (by simp [Orderly, Option.all_eq_true])
  | .workerMsgs _ msgs =>
    inferInstanceAs (Decidable (x.state.core.liveCount + (msgs.map roomFor).sum ≤ Core.maxEntries))
  | .connectClient | .takeJob _ | .clientGone _ | .workerGone _ | .revokeOrphans | .restarting
  | .serving | .watchMembership | .unwatchMembership _ => .isTrue trivial

/-- The calls are allowed and orderly, and take in the given messages. -/
def tidily : Dispatcher → List (Call × List Event) → Bool
  | _, [] => true
  | x, (call, events) :: calls =>
    call.allowed shared x && decide (Orderly x call) &&
      decide ((next x call).state.asked = events ++ x.state.asked) && tidily (next x call) calls

theorem orderlyReached_turnsFrom {x : Dispatcher} {history : List Turn}
    (reached : OrderlyReached shared x history) {calls : List (Call × List Event)}
    (fine : tidily x calls) :
    OrderlyReached shared ((calls.map Prod.fst).foldl next x) (history ++ turnsFrom x calls) := by
  induction calls generalizing x history with
  | nil => rwa [turnsFrom, append_nil]
  | cons step calls ih =>
    obtain ⟨call, events⟩ := step
    simp only [tidily, Bool.and_eq_true, decide_eq_true_eq] at fine
    obtain ⟨⟨⟨allowed, orderly⟩, asked_eq⟩, rest⟩ := fine
    have turns_eq : history ++ turnsFrom x ((call, events) :: calls) =
        history ++ [⟨call, .obliging, x, events⟩] ++ turnsFrom (next x call) calls := by
      simp [turnsFrom]
    rw [turns_eq]
    exact ih (.step reached ⟨call, .obliging, events, rfl, allowed, orderly, rfl, asked_eq⟩) rest

/-- A client wants two derivations, the pool looks them up and applies the batch, and then it cancels
the first. -/
def patiently : List (Call × List Event) :=
  [(.connectClient, []),
    (.clientMsgs 1 [.want lookedUp, .want { drvPath := "b.drv" }] fun _ => none, []),
    (.takeJob fun _ => none, []),
    (.applyChunk 0, [.want 1 { drvPath := "b.drv" } .kept, .want 1 lookedUp .kept]),
    (.clientMsgs 1 [.cancel "a.drv"] fun _ => none, []),
    (.applyChunk 0, [.cancel 1 "a.drv"])]

/-- Both batches take effect in order: the client follows the second derivation alone. -/
theorem messages_in_order_patiently :
    ∃ x history, OrderlyReached shared x history ∧
      sent 1 history = [.want lookedUp, .want { drvPath := "b.drv" }, .cancel "a.drv"] ∧
      applied 1 x.state.asked = sent 1 history ∧
      ¬ Follows x.state.core 1 (PathKey.ofPath "a.drv") ∧
      (Follows x.state.core 1 (PathKey.ofPath "b.drv") ∨
        DoneSince shared history 1 (PathKey.ofPath "b.drv")) := by
  have reached := orderlyReached_turnsFrom (.start ⟨{}, rfl⟩) (show tidily {} patiently by decide +kernel)
  have here : 1 ∈ ((patiently.map Prod.fst).foldl next {}).state.clients := by decide +kernel
  have nothing : pending 1 ((patiently.map Prod.fst).foldl next {}) = [] := by decide +kernel
  have denied : lastAsked ((patiently.map Prod.fst).foldl next {}).state.asked 1 (PathKey.ofPath "a.drv") =
      some false := by
    decide +kernel
  have kept : lastAsked ((patiently.map Prod.fst).foldl next {}).state.asked 1 (PathKey.ofPath "b.drv") =
      some true := by
    decide +kernel
  have unknown : ∀ key, ¬ Follows (next {} .connectClient).state.core 1 key := by
    rintro key ⟨drv, ent, live, -⟩
    have empty : (next {} .connectClient).state.core.entries = [] := by decide +kernel
    simp [Core.entry, empty] at live
  have fresh : ∀ turn ∈ turnsFrom {} patiently, turn.Fresh 1 := by
    simp only [patiently, turnsFrom, List.forall_mem_cons]
    refine ⟨trivial, fun _ => .inr ⟨by decide, unknown _, .inr ⟨by decide, not_or.mpr ⟨unknown _, by decide⟩, trivial⟩⟩,
      trivial, trivial, fun _ => trivial, trivial, by simp⟩
  obtain ⟨all, follows, only⟩ := (messages_in_order reached 1).2 here nothing
  refine ⟨_, _, reached, rfl, all, fun followed => ?_, follows _ kept⟩
  have wanted := only fresh _ followed
  rw [denied] at wanted
  cases wanted

/-! ## What else may happen -/

/-- A client wants a derivation and then cancels it, while the cache is slow. -/
def overtaken : List (World × Call) :=
  [(.obliging, .connectClient),
    (.obliging, .clientMsgs 1 [.want lookedUp] fun _ => none),
    (.obliging, .clientMsgs 1 [.cancel "a.drv"] fun _ => none),
    (.obliging, .applyChunk 0),
    (.obliging, .takeJob fun _ => none),
    (.obliging, .applyChunk 0)]

/-- The Cancel overtakes the Want, and the client follows what it has cancelled. -/
theorem overtaken_reorders :
    ∃ x ent, Reached shared x (overtaken.map Prod.snd) ∧
      (overtaken.flatMap fun step => sentBy 1 step.2) = [.want lookedUp, .cancel "a.drv"] ∧
      applied 1 x.state.asked = [.cancel "a.drv", .want lookedUp] ∧ pending 1 x = [] ∧
      x.state.core.entry 0 = some ent ∧ ent.drvPath = "a.drv" ∧ 1 ∈ ent.followers := by
  have ends : (runAll shared overtaken {}).bind (fun x =>
      (x.state.core.entry 0).map fun ent =>
        (applied 1 x.state.asked, pending 1 x, ent.drvPath, ent.followers)) =
      some ([.cancel "a.drv", .want lookedUp], [], "a.drv", [1]) := by
    decide +kernel
  obtain ⟨x, ran, found⟩ := Option.bind_eq_some_iff.mp ends
  obtain ⟨ent, live, shape⟩ := Option.map_eq_some_iff.mp found
  simp only [Prod.mk.injEq] at shape
  obtain ⟨applied_eq, pending_eq, path_eq, followers_eq⟩ := shape
  exact ⟨x, ent, Reached.runAll (.start ⟨{}, rfl⟩) ran, by decide, applied_eq, pending_eq, live, path_eq,
    by simp [followers_eq]⟩

end NixGrpcStore.Dispatcher
