import NixGrpcStore.Dispatcher.Truth

/-!
# Waiting clients know whether they can be placed

What a client was told since its last Want of a derivation adds up to a standing.  As long as the
client waits, its standing agrees with the flag of the entry, and the flag of a queued entry says
whether some worker could take it.
-/

namespace NixGrpcStore.Dispatcher

open Sched Remote StateExcept

/-- What a client knows of a derivation. -/
inductive Standing
  /-- Its last Want was not kept, or it never wanted it. -/
  | out
  /-- It was told a place since its last Want. -/
  | placed
  /-- It waits, and was told last that nobody takes it, or not. -/
  | waits (unplaceable : Bool)
  deriving DecidableEq

namespace Standing

/-- A place ends the wait. -/
def place : Standing → Standing
  | .waits _ => .placed
  | standing => standing

/-- News for those who wait. -/
def flag (unplaceable : Bool) : Standing → Standing
  | .waits _ => .waits unplaceable
  | standing => standing

/-- What an event means to a client. -/
def hear (client : ClientId) (key : PathKey) (event : Event) (standing : Standing) : Standing :=
  match event with
  | .want other want answer =>
    if other = client ∧ PathKey.ofPath want.drvPath = key then
      if answer = .kept then .waits false else .out
    else
      standing
  | .toClient other (.assigned asg) =>
    if other = client ∧ PathKey.ofPath asg.drvPath = key then standing.place else standing
  | .toClient other (.unplaceable path _) =>
    if other = client ∧ PathKey.ofPath path = key then standing.flag true else standing
  | .toClient other (.placeable path) =>
    if other = client ∧ PathKey.ofPath path = key then standing.flag false else standing
  | _ => standing

theorem place_place (standing : Standing) : standing.place.place = standing.place := by
  cases standing <;> rfl

theorem place_ne_waits (standing : Standing) (flag : Bool) : standing.place ≠ .waits flag := by
  cases standing <;> simp [place]

theorem flag_flag (unplaceable : Bool) (standing : Standing) :
    (standing.flag unplaceable).flag unplaceable = standing.flag unplaceable := by
  cases standing <;> rfl

theorem flag_eq_waits {unplaceable flag : Bool} {standing : Standing}
    (waits : standing.flag unplaceable = .waits flag) :
    flag = unplaceable ∧ ∃ old, standing = .waits old := by
  cases standing with
  | waits old => exact ⟨(Standing.waits.inj waits).symm, old, rfl⟩
  | out => cases waits
  | placed => cases waits

end Standing

/-- What a client knows of a derivation after all that happened. -/
def standing (log : List Event) (client : ClientId) (key : PathKey) : Standing :=
  log.foldr (Standing.hear client key) .out

/-- What an event tells a client about a derivation: that nobody takes it, or that someone does. -/
def newsIn (client : ClientId) (key : PathKey) : Event → Option Bool
  | .toClient other (.unplaceable path _) =>
    if other = client ∧ PathKey.ofPath path = key then some true else none
  | .toClient other (.placeable path) =>
    if other = client ∧ PathKey.ofPath path = key then some false else none
  | _ => none

/-- Whether the last news of a derivation to a client was that nobody takes it. -/
def lastNews (log : List Event) (client : ClientId) (key : PathKey) : Option Bool :=
  log.findSome? (newsIn client key)

section Log

variable {log more : List Event} {client : ClientId} {key : PathKey} {event : Event}

theorem standing_cons (event : Event) (log : List Event) (client : ClientId) (key : PathKey) :
    standing (event :: log) client key = (standing log client key).hear client key event := rfl

theorem lastNews_cons (event : Event) (log : List Event) (client : ClientId) (key : PathKey) :
    lastNews (event :: log) client key = (newsIn client key event).or (lastNews log client key) := by
  rw [lastNews, List.findSome?_cons]
  cases newsIn client key event with
  | none => rfl
  | some news => rfl

/-- Events that say nothing about a derivation to a client. -/
theorem standing_of_deaf (deaf : ∀ event ∈ more, ∀ st : Standing, st.hear client key event = st) :
    standing (more ++ log) client key = standing log client key := by
  induction more with
  | nil => rfl
  | cons event more ih =>
    rw [List.cons_append, standing_cons, deaf event List.mem_cons_self]
    exact ih fun other mem => deaf other (List.mem_cons_of_mem event mem)

/-- Of events that all mean the same to a client, or nothing, one is as good as many. -/
theorem standing_said {change : Standing → Standing} (again : ∀ st, change (change st) = change st)
    (each : ∀ event ∈ more, (∀ st : Standing, st.hear client key event = st) ∨
      ∀ st : Standing, st.hear client key event = change st) :
    standing (more ++ log) client key = standing log client key ∧
        (∀ event ∈ more, ∀ st : Standing, st.hear client key event = st) ∨
      standing (more ++ log) client key = change (standing log client key) := by
  induction more with
  | nil => exact .inl ⟨rfl, nofun⟩
  | cons event more ih =>
    rw [List.cons_append, standing_cons]
    rcases ih fun other mem => each other (List.mem_cons_of_mem event mem) with ⟨same, deaf⟩ | changed
    · rw [same]
      rcases each event List.mem_cons_self with mute | said
      · exact .inl ⟨mute _, fun other mem => (List.mem_cons.mp mem).elim (· ▸ mute) (deaf other)⟩
      · exact .inr (said _)
    · rw [changed]
      refine .inr ?_
      rcases each event List.mem_cons_self with mute | said
      · exact mute _
      · rw [said, again]

theorem Event.Quiet.hear_eq (quiet : event.Quiet) (st : Standing) : st.hear client key event = st := by
  match event with
  | .toClient _ (.assigned _) => exact quiet.elim
  | .toClient _ (.unplaceable _ _) => exact quiet.elim
  | .toClient _ (.placeable _) => exact quiet.elim
  | .want _ _ _ => exact quiet.elim
  | .toClient _ (.cached _) | .toClient _ .restarting | .toClient _ .empty => rfl
  | .hello _ _ => exact quiet.elim
  | .placed _ _ => exact quiet.elim
  | .toSession _ _ _ | .cancel _ _ => rfl

/-- What a client that was told no place since its last Want knows is the last news. -/
theorem standing_eq_lastNews {newer older : List Event} {want : Want}
    (key_eq : PathKey.ofPath want.drvPath = key)
    (no_want : ∀ want answer, .want client want answer ∈ newer → PathKey.ofPath want.drvPath ≠ key)
    (no_place : ∀ asg, .toClient client (.assigned asg) ∈ newer → PathKey.ofPath asg.drvPath ≠ key) :
    standing (newer ++ .want client want .kept :: older) client key =
      .waits ((lastNews newer client key).getD false) := by
  induction newer with
  | nil => simp [standing_cons, Standing.hear, key_eq, lastNews]
  | cons event newer ih =>
    have ih := ih (fun want answer mem => no_want want answer (List.mem_cons_of_mem event mem))
      fun asg mem => no_place asg (List.mem_cons_of_mem event mem)
    rw [List.cons_append, standing_cons, ih, lastNews_cons]
    match event with
    | .want other wanted answer =>
      have deaf : ¬ (other = client ∧ PathKey.ofPath wanted.drvPath = key) := by
        rintro ⟨rfl, same⟩
        exact no_want wanted answer List.mem_cons_self same
      simp only [Standing.hear, if_neg deaf, newsIn, Option.none_or]
    | .toClient other (.assigned asg) =>
      have deaf : ¬ (other = client ∧ PathKey.ofPath asg.drvPath = key) := by
        rintro ⟨rfl, same⟩
        exact no_place asg List.mem_cons_self same
      simp only [Standing.hear, if_neg deaf, newsIn, Option.none_or]
    | .toClient other (.unplaceable path reason) =>
      by_cases concerns : other = client ∧ PathKey.ofPath path = key
      · simp [Standing.hear, newsIn, concerns, Standing.flag]
      · simp only [Standing.hear, newsIn, if_neg concerns, Option.none_or]
    | .toClient other (.placeable path) =>
      by_cases concerns : other = client ∧ PathKey.ofPath path = key
      · simp [Standing.hear, newsIn, concerns, Standing.flag]
      · simp only [Standing.hear, newsIn, if_neg concerns, Option.none_or]
    | .toClient _ (.cached _) | .toClient _ .restarting | .toClient _ .empty => rfl
    | .hello _ _ | .toSession _ _ _ | .cancel _ _ | .placed _ _ => rfl

end Log

/-! ## The invariant -/

/-- What a follower of an entry knows agrees with its flag. -/
structure Informed (v : Stage) (drv : DrvId) (ent : Entry) (client : ClientId) : Prop where
  placed : ent.worker ≠ none → v.Settled drv → ∀ flag, standing v.log client ent.pathKey ≠ .waits flag
  waits : ∀ flag, standing v.log client ent.pathKey = .waits flag →
    flag = ent.unplaceable ∨ (client, drv) ∈ v.owed ∧ flag = false

/-- Every connected follower is informed. -/
def News (v : Stage) : Prop :=
  ∀ drv ent client, v.core.entry drv = some ent → client ∈ ent.followers → client ∈ v.clients →
    Informed v drv ent client

section Moves

variable {lossy : Prop} {v v' : Stage} {drv : DrvId} {ent new : Entry} {client : ClientId}

/-- A client that was told nothing need not be told anything. -/
theorem Informed.keeps (informed : Informed v drv ent client) (key_eq : new.pathKey = ent.pathKey)
    (flag_eq : new.unplaceable = ent.unplaceable)
    (assigned : new.worker ≠ none → v'.Settled drv → ent.worker ≠ none ∧ v.Settled drv)
    (standing_eq : standing v'.log client ent.pathKey = standing v.log client ent.pathKey)
    (owed : (client, drv) ∈ v.owed → (client, drv) ∈ v'.owed) : Informed v' drv new client where
  placed busy settled flag := by
    obtain ⟨old_busy, old_settled⟩ := assigned busy settled
    rw [key_eq, standing_eq]
    exact informed.placed old_busy old_settled flag
  waits flag standing_waits := by
    rw [key_eq, standing_eq] at standing_waits
    rw [flag_eq]
    exact (informed.waits flag standing_waits).imp id fun pair => ⟨owed pair.1, pair.2⟩

/-- Where only events are added that say nothing to the followers of live entries. -/
theorem News.says (news : News v) (more : List Event)
    (deaf : ∀ drv ent client, v.core.entry drv = some ent → client ∈ ent.followers → client ∈ v.clients →
      ∀ event ∈ more, ∀ st : Standing, st.hear client ent.pathKey event = st) :
    News { v with log := more ++ v.log } := by
  intro drv ent client live follows connected
  exact (news drv ent client live follows connected).keeps rfl rfl (fun busy settled => ⟨busy, settled⟩)
    (standing_of_deaf (deaf drv ent client live follows connected)) id

variable {other : ClientId} {msg : SchedMsg}

theorem Refuses.hear_eq {path : String} (refusal : Refuses path msg) {key : PathKey}
    (elsewhere : ¬ (other = client ∧ PathKey.ofPath path = key)) (st : Standing) :
    st.hear client key (.toClient other msg) = st := by
  match msg with
  | .assigned _ => exact refusal.elim
  | .placeable _ => exact refusal.elim
  | .unplaceable found _ =>
    obtain rfl : found = path := refusal
    exact if_neg elsewhere
  | .cached _ | .restarting | .empty => rfl

theorem Refuses.hear_out {path : String} (refusal : Refuses path msg) {key : PathKey} :
    Standing.out.hear client key (.toClient other msg) = .out := by
  match msg with
  | .assigned _ => exact refusal.elim
  | .placeable _ => exact refusal.elim
  | .unplaceable _ _ => exact ite_self _
  | .cached _ | .restarting | .empty => rfl

/-- Whoever is turned down no longer waits. -/
theorem News.refuse (news : News v) {want : Want} {answer : Answer}
    (turned_down : answer ≠ .kept) (refusal : Refuses want.drvPath msg) :
    News { v with log := .toClient other msg :: .want other want answer :: v.log } := by
  intro drv ent client live follows connected
  have informed := news drv ent client live follows connected
  by_cases concerns : other = client ∧ PathKey.ofPath want.drvPath = ent.pathKey
  · have left : standing (.toClient other msg :: .want other want answer :: v.log) client ent.pathKey =
        .out := by
      rw [standing_cons, standing_cons, Standing.hear, if_pos concerns, if_neg turned_down]
      exact refusal.hear_out
    exact ⟨fun _ _ flag => by simp [left], fun flag waits => by simp [left] at waits⟩
  · refine informed.keeps rfl rfl (fun busy settled => ⟨busy, settled⟩) ?_ id
    rw [standing_cons, refusal.hear_eq concerns, standing_cons, Standing.hear, if_neg concerns]

theorem News.connect (news : News v) (truth : Truth v) :
    News { v with nextClient := v.nextClient + 1, clients := v.nextClient :: v.clients } := by
  intro drv ent client live follows connected
  rcases List.mem_cons.mp connected with rfl | connected
  · exact absurd (truth.followers drv ent live _ follows) (lt_irrefl _)
  · exact (news drv ent client live follows connected).keeps rfl rfl
      (fun busy settled => ⟨busy, settled⟩) rfl id

/-- The Want of a derivation the table has no place for concerns no entry. -/
theorem News.overflow (news : News v) {want : Want}
    (unknown : ∀ drv ent, v.core.entry drv = some ent → ent.pathKey ≠ PathKey.ofPath want.drvPath) :
    News { v with log := .want other want .kept :: v.log } := by
  refine news.says [_] fun drv ent client live _ _ event mem st => ?_
  rw [List.mem_singleton.mp mem]
  exact if_neg fun concerns => unknown drv ent live concerns.2.symm

section Wants

variable {s s' : Core} {cfg : Config} {other : ClientId} {want : Want} {nowMs : ℚ} {found : DrvId}

/-- A Want goes to the entry of its derivation. -/
theorem wanted_key (inv : s.Inv) (wanted : Core.Wanted s s' other (wantInfo cfg want) nowMs drv) :
    (Core.wantEntry other (wantInfo cfg want) nowMs (s.entry drv)).pathKey =
      PathKey.ofPath want.drvPath := by
  rw [Entry.pathKey, Core.wantEntry_drvPath]
  rcases wanted.place with known | ⟨-, unused⟩
  · obtain ⟨ent, live, key_eq⟩ := (inv.findDrv_iff _ drv).mp known
    rw [live]
    exact key_eq
  · rw [unused]
    rfl

/-- The followers of an entry after a Want are the one that wants it, and those of before. -/
theorem wanted_cases (inv : s.Inv) (inv' : s'.Inv)
    (wanted : Core.Wanted s s' other (wantInfo cfg want) nowMs drv) (live : s'.entry found = some new)
    (follows : client ∈ new.followers) :
    (client = other ∧ found = drv ∧ new.pathKey = PathKey.ofPath want.drvPath ∧
        new.worker = (s.entry drv).bind Entry.worker) ∨
      ¬ (other = client ∧ PathKey.ofPath want.drvPath = new.pathKey) ∧
        ∃ ent, s.entry found = some ent ∧ client ∈ ent.followers ∧ new.pathKey = ent.pathKey ∧
          new.unplaceable = ent.unplaceable ∧ new.worker = ent.worker := by
  have key_eq := wanted_key inv wanted
  have drv_live : s'.entry drv = some (Core.wantEntry other (wantInfo cfg want) nowMs (s.entry drv)) := by
    rw [wanted.entry_eq, Function.update_self]
  by_cases is_drv : found = drv
  · subst is_drv
    cases drv_live.symm.trans live
    by_cases is_other : client = other
    · exact .inl ⟨is_other, rfl, key_eq, Core.wantEntry_worker ..⟩
    · obtain ⟨ent, ent_live, old_follows⟩ :=
        ((Core.mem_wantEntry_followers other _ _ _).mp follows).resolve_left is_other
      refine .inr ⟨fun concerns => is_other concerns.1.symm, ent, ent_live, old_follows, ?_⟩
      rw [ent_live]
      simp [Entry.pathKey]
  · refine .inr ⟨fun concerns => is_drv (drv_unique inv' drv_live live ?_), new, ?_, follows, rfl, rfl, rfl⟩
    · rw [key_eq, concerns.2]
    · rwa [wanted.entry_eq, Function.update_of_ne is_drv] at live

/-- Where a Want is kept, its client is owed what the entry says. -/
theorem News.keep (news : News v) (truth : Truth v) (inv : s'.Inv)
    (wanted : Core.Wanted v.core s' other (wantInfo cfg want) nowMs drv)
    (waits : ∀ ent, v.core.entry drv = some ent → ent.worker = none) :
    News
      { v with
        core := s'
        log := .want other want .kept :: v.log
        owed := insert (other, drv) v.owed } := by
  intro found new client live follows connected
  rcases wanted_cases truth.inv inv wanted live follows with
    ⟨rfl, rfl, key_eq, worker_eq⟩ | ⟨elsewhere, ent, old_live, old_follows, key_eq, flag_eq, worker_eq⟩
  · have idle : new.worker = none := by
      rw [worker_eq]
      exact Option.bind_eq_none_iff.mpr waits
    have starts : standing (.want client want .kept :: v.log) client new.pathKey = .waits false := by
      rw [standing_cons, Standing.hear, if_pos ⟨rfl, key_eq.symm⟩, if_pos rfl]
    refine ⟨fun busy => absurd idle busy, fun flag flag_eq => .inr ⟨Set.mem_insert _ _, ?_⟩⟩
    exact (Standing.waits.inj (starts.symm.trans flag_eq)).symm
  · refine (news found ent client old_live old_follows connected).keeps key_eq flag_eq
      (fun busy settled => ⟨worker_eq ▸ busy, settled⟩) ?_ (Set.mem_insert_of_mem _)
    rw [standing_cons, Standing.hear, if_neg (key_eq ▸ elsewhere)]

/-- A Want that joins an assigned entry is told its place at once. -/
theorem News.join (news : News v) (truth : Truth v) {wkr : Worker} (inv : s'.Inv)
    (wanted : Core.Wanted v.core s' other (wantInfo cfg want) nowMs drv)
    (live : v.core.entry drv = some ent) :
    News
      { v with
        core := s'
        log := .toClient other (.assigned (assignedTo wkr ent)) :: .want other want .kept :: v.log } := by
  intro found new client new_live follows connected
  have told_key : PathKey.ofPath (assignedTo wkr ent).drvPath = PathKey.ofPath want.drvPath := by
    have key_eq := wanted_key truth.inv wanted
    rw [live, Entry.pathKey, Core.wantEntry_drvPath] at key_eq
    exact key_eq
  rcases wanted_cases truth.inv inv wanted new_live follows with
    ⟨rfl, rfl, key_eq, -⟩ | ⟨elsewhere, old, old_live, old_follows, key_eq, flag_eq, worker_eq⟩
  · have told : standing (.toClient client (.assigned (assignedTo wkr ent)) ::
        .want client want .kept :: v.log) client new.pathKey = .placed := by
      rw [standing_cons, standing_cons, Standing.hear, Standing.hear, if_pos ⟨rfl, told_key.trans key_eq.symm⟩,
        if_pos ⟨rfl, key_eq.symm⟩, if_pos rfl]
      rfl
    exact ⟨fun _ _ flag => by simp [told], fun flag waits => by simp [told] at waits⟩
  · refine (news found old client old_live old_follows connected).keeps key_eq flag_eq
      (fun busy settled => ⟨worker_eq ▸ busy, settled⟩) ?_ id
    rw [standing_cons, standing_cons, Standing.hear, Standing.hear, if_neg (key_eq ▸ told_key ▸ elsewhere),
      if_neg (key_eq ▸ elsewhere)]

end Wants

/-- Entries that lose followers or workers leave the others informed. -/
theorem News.shed (news : News v) {s' : Core} {clients : List ClientId}
    {workers : AList fun _ : WorkerId => SessionId} (sheds : Sheds lossy v.core s')
    (fewer : clients ⊆ v.clients) : News { v with core := s', clients, workers } := by
  intro drv new client live follows connected
  obtain ⟨ent, old_live, shrinks⟩ := sheds.entry drv new live
  refine (news drv ent client old_live (shrinks.followers_sub follows) (fewer connected)).keeps
    (congrArg PathKey.ofPath shrinks.path_eq) shrinks.flag_eq (fun busy settled => ⟨?_, settled⟩) rfl id
  obtain ⟨worker_eq, -⟩ := shrinks.assigned.resolve_left busy
  exact worker_eq ▸ busy

theorem News.place (news : News v) {out : List Assign} {s' : Core} (places : Core.Places v.core out s')
    (settled : v.pending = ∅) :
    News
      { v with core := s', pending := {sup | ∃ asg ∈ out, sup = { drv := asg.drv }}, placing := out } := by
  intro drv new client live follows connected
  by_cases is_placed : ∃ asg ∈ out, asg.drv = drv
  · obtain ⟨asg, mem, rfl⟩ := is_placed
    obtain ⟨ent, -, old_live, -, -, -, -, new_eq⟩ := places.placed asg mem
    cases new_eq.symm.trans live
    refine (news asg.drv ent client old_live follows connected).keeps rfl rfl (fun _ told => ?_) rfl id
    exact absurd rfl (told { drv := asg.drv } ⟨asg, mem, rfl⟩)
  · rw [places.other drv fun asg mem same => is_placed ⟨asg, mem, same⟩] at live
    exact (news drv new client live follows connected).keeps rfl rfl
      (fun busy _ => ⟨busy, fun sup mem => by simp [settled] at mem⟩) rfl id

theorem News.settle (news : News v) {sup : Superseded}
    (idle : ∀ ent, v.core.entry sup.drv = some ent → ent.worker = none) :
    News { v with pending := v.pending \ {sup} } := by
  intro drv ent client live follows connected
  refine (news drv ent client live follows connected).keeps rfl rfl
    (fun busy settled => ⟨busy, fun other mem => ?_⟩) rfl id
  by_cases is_sup : other = sup
  · rintro rfl
    exact busy (idle ent (is_sup ▸ live))
  · exact settled other ⟨mem, is_sup⟩

/-- A Hello leaves the entries to be told that its worker took over. -/
theorem News.greet (news : News v) (truth : Truth v) {sid : SessionId} {hel : Hello}
    {systems : List String} {superseded : List Superseded} {s' : Core} {wid : WorkerId}
    (greeted : Core.Greeted v.core s' (helloInfo hel systems) wid superseded) (settled : v.pending = ∅) :
    News
      { v with
        core := s'
        workers := v.workers.insert wid sid
        log := .hello sid hel :: v.log
        pending := {sup | sup ∈ superseded} } := by
  intro drv new client live follows connected
  obtain ⟨ent, old_live, key_eq, flag_eq, old_follows⟩ := greeted_followers greeted live follows
  refine (news drv ent client old_live old_follows connected).keeps key_eq.symm flag_eq.symm
    (fun busy told => ⟨?_, fun sup mem => by simp [settled] at mem⟩) rfl id
  obtain ⟨other, assigned⟩ := Option.ne_none_iff_exists'.mp busy
  rcases greeted_cases truth.inv greeted live assigned with
    ⟨sup, mem, is_drv⟩ | ⟨same_live, -⟩ | ⟨-, unfollowed, -⟩
  · exact absurd is_drv (told sup mem)
  · cases same_live.symm.trans old_live
    exact busy
  · rw [unfollowed] at follows
    cases follows

/-- Whoever is told a place no longer waits. -/
theorem News.tell (news : News v) (truth : Truth v) {sup : Superseded} {revokes : List Event}
    {wkr : Worker} (live : v.core.entry sup.drv = some ent) (quiet : ∀ event ∈ revokes, event.Quiet) :
    News
      { v with
        log := revokes ++ handed v.clients (.assigned (assignedTo wkr ent)) ent.followers ++ v.log
        pending := v.pending \ {sup} } := by
  intro drv found client found_live follows connected
  have informed := news drv found client found_live follows connected
  by_cases is_drv : drv = sup.drv
  · cases live.symm.trans (is_drv ▸ found_live)
    have each : ∀ event ∈ revokes ++ handed v.clients (.assigned (assignedTo wkr ent)) ent.followers,
        (∀ st : Standing, st.hear client ent.pathKey event = st) ∨
          ∀ st : Standing, st.hear client ent.pathKey event = st.place := by
      intro event mem
      rcases List.mem_append.mp mem with mem | mem
      · exact .inl (quiet event mem).hear_eq
      · obtain ⟨other, -, -, rfl⟩ := mem_handed.mp mem
        by_cases same : other = client
        · exact .inr fun st => if_pos ⟨same, rfl⟩
        · exact .inl fun st => if_neg fun concerns => same concerns.1
    have told : standing (revokes ++ handed v.clients (.assigned (assignedTo wkr ent)) ent.followers ++
        v.log) client ent.pathKey = (standing v.log client ent.pathKey).place := by
      rcases standing_said Standing.place_place each with ⟨same, deaf⟩ | told
      · have heard := deaf (.toClient client (.assigned (assignedTo wkr ent)))
          (List.mem_append_right revokes (mem_handed.mpr ⟨client, follows, connected, rfl⟩))
          (standing v.log client ent.pathKey)
        rw [same]
        exact heard.symm.trans (if_pos ⟨rfl, rfl⟩)
      · exact told
    refine ⟨fun _ _ flag => ?_, fun flag waits => ?_⟩
    · rw [told]
      exact Standing.place_ne_waits _ flag
    · rw [told] at waits
      exact absurd waits (Standing.place_ne_waits _ flag)
  · refine informed.keeps rfl rfl (fun busy settled => ⟨busy, fun other mem => ?_⟩)
      (standing_of_deaf fun event mem st => ?_) id
    · by_cases is_sup : other = sup
      · exact is_sup ▸ fun same => is_drv same.symm
      · exact settled other ⟨mem, is_sup⟩
    · rcases List.mem_append.mp mem with mem | mem
      · exact (quiet event mem).hear_eq st
      · obtain ⟨other, -, -, rfl⟩ := mem_handed.mp mem
        exact if_neg fun concerns => is_drv (drv_unique truth.inv live found_live concerns.2.symm)

/-- What a message about an entry means to a client. -/
theorem SaysFlag.hear_eq (told : SaysFlag ent msg) (client : ClientId) (st : Standing) :
    st.hear client ent.pathKey (.toClient client msg) = st.flag ent.unplaceable := by
  unfold SaysFlag at told
  split_ifs at told with flagged
  · obtain ⟨reason, rfl⟩ := told
    rw [flagged]
    exact if_pos ⟨rfl, rfl⟩
  · rw [told, Bool.eq_false_of_not_eq_true flagged]
    exact if_pos ⟨rfl, rfl⟩

theorem SaysFlag.hear_other (told : SaysFlag ent msg) {key : PathKey}
    (elsewhere : ¬ (other = client ∧ ent.pathKey = key)) (st : Standing) :
    st.hear client key (.toClient other msg) = st := by
  unfold SaysFlag at told
  split_ifs at told
  · obtain ⟨reason, rfl⟩ := told
    exact if_neg elsewhere
  · rw [told]
    exact if_neg elsewhere

/-- Those whose entry flips are told. -/
theorem News.flags (news : News v) (truth : Truth v) {s' : Core} {said : List Event}
    (entry_eq : ∀ drv, s'.entry drv = (v.core.entry drv).map (Core.withFlag v.core.placeable))
    (sound : ∀ event ∈ said, ∃ drv ent client msg, event = .toClient client msg ∧
      v.core.entry drv = some ent ∧ SaysFlag (Core.withFlag v.core.placeable ent) msg)
    (complete : ∀ drv ent client, v.core.entry drv = some ent →
      Core.Disagrees v.core.placeable ent → client ∈ ent.followers → client ∈ v.clients →
      ∃ msg, .toClient client msg ∈ said ∧ SaysFlag (Core.withFlag v.core.placeable ent) msg) :
    News { v with core := s', log := said ++ v.log } := by
  intro drv new client live follows connected
  change s'.entry drv = some new at live
  rw [entry_eq] at live
  obtain ⟨ent, old_live, rfl⟩ := Option.map_eq_some_iff.mp live
  rw [Core.withFlag_followers] at follows
  have key_eq : ∀ ent, (Core.withFlag v.core.placeable ent).pathKey = ent.pathKey := fun ent => by
    simp [Entry.pathKey]
  have informed := news drv ent client old_live follows connected
  have each : ∀ event ∈ said, (∀ st : Standing, st.hear client ent.pathKey event = st) ∨
      ∀ st : Standing, st.hear client ent.pathKey event =
        st.flag (Core.withFlag v.core.placeable ent).unplaceable := by
    intro event mem
    obtain ⟨other, found, receiver, msg, rfl, found_live, told⟩ := sound event mem
    by_cases concerns : receiver = client ∧ (Core.withFlag v.core.placeable found).pathKey = ent.pathKey
    · obtain ⟨rfl, same_key⟩ := concerns
      obtain rfl : other = drv := drv_unique truth.inv old_live found_live (key_eq found ▸ same_key)
      obtain rfl := Option.some.inj (found_live.symm.trans old_live)
      exact .inr fun st => key_eq found ▸ told.hear_eq receiver st
    · exact .inl (told.hear_other concerns)
  have said_or_same : standing (said ++ v.log) client ent.pathKey = standing v.log client ent.pathKey ∧ _ ∨ _ :=
    standing_said (Standing.flag_flag (Core.withFlag v.core.placeable ent).unplaceable) each
  refine ⟨fun busy settled flag => ?_, fun flag waits => ?_⟩
  · rw [Core.withFlag_worker] at busy
    have not_waits := informed.placed busy settled
    rw [key_eq]
    rcases said_or_same with ⟨same, -⟩ | told
    · rw [same]
      exact not_waits flag
    · rw [told]
      intro waits
      obtain ⟨-, old, old_waits⟩ := Standing.flag_eq_waits waits
      exact not_waits old old_waits
  · rw [key_eq] at waits
    rcases said_or_same with ⟨same, deaf⟩ | told
    · by_cases disagrees : Core.Disagrees v.core.placeable ent
      · -- the flip was told, so it was heard
        obtain ⟨msg, mem, told⟩ := complete drv ent client old_live disagrees follows connected
        have heard := deaf _ mem (standing v.log client ent.pathKey)
        rw [← key_eq, told.hear_eq, key_eq, ← same, waits] at heard
        exact .inl (Standing.waits.inj heard).symm
      · rw [Core.withFlag_of_not_disagrees disagrees]
        exact informed.waits flag (same ▸ waits)
    · rw [told] at waits
      exact .inl (Standing.flag_eq_waits waits).1

/-- A client that is told that nobody takes its derivation is owed nothing more. -/
theorem News.mark (news : News v) (truth : Truth v) {s' : Core} {reason : String}
    (live : v.core.entry drv = some ent)
    (entry_eq : s'.entry = Function.update v.core.entry drv (some { ent with unplaceable := true }))
    (old_news : ent.unplaceable = true ∨ ent.followers ⊆ [other]) :
    News
      { v with
        core := s'
        log := .toClient other (.unplaceable ent.drvPath reason) :: v.log
        owed := v.owed \ {(other, drv)} } := by
  intro found new client new_live follows connected
  change s'.entry found = some new at new_live
  rw [entry_eq] at new_live
  by_cases is_drv : found = drv
  · subst is_drv
    rw [Function.update_self] at new_live
    cases new_live
    have informed := news found ent client live follows connected
    by_cases is_other : client = other
    · subst is_other
      have heard : standing (.toClient client (.unplaceable ent.drvPath reason) :: v.log) client
          ent.pathKey = (standing v.log client ent.pathKey).flag true := if_pos ⟨rfl, rfl⟩
      refine ⟨fun busy settled flag waits => ?_, fun flag waits => .inl ?_⟩
      · obtain ⟨-, old, old_waits⟩ := Standing.flag_eq_waits (heard.symm.trans waits)
        exact informed.placed busy settled old old_waits
      · exact (Standing.flag_eq_waits (heard.symm.trans waits)).1
    · have flagged := old_news.resolve_right fun only =>
        is_other (List.mem_singleton.mp (only follows))
      refine informed.keeps rfl flagged.symm (fun busy settled => ⟨busy, settled⟩)
        (if_neg fun concerns => is_other concerns.1.symm) fun mem => ⟨mem, ?_⟩
      exact fun same => is_other (Prod.mk.inj same).1
  · rw [Function.update_of_ne is_drv] at new_live
    refine (news found new client new_live follows connected).keeps rfl rfl
      (fun busy settled => ⟨busy, settled⟩) (if_neg fun concerns => ?_) fun mem => ⟨mem, ?_⟩
    · exact is_drv (drv_unique truth.inv live new_live concerns.2.symm)
    · exact fun same => is_drv (Prod.mk.inj same).2

theorem News.acquit (news : News v)
    (fine : ∀ ent, v.core.entry drv = some ent → ent.worker = none → ent.unplaceable = false)
    (settled : v.pending = ∅) : News { v with owed := v.owed \ {(other, drv)} } := by
  intro found ent client live follows connected
  have informed := news found ent client live follows connected
  refine ⟨informed.placed, fun flag waits => ?_⟩
  by_cases acquitted : (client, found) = (other, drv)
  · obtain ⟨rfl, rfl⟩ := Prod.mk.inj acquitted
    have idle : ent.worker = none := by
      by_contra busy
      exact informed.placed busy (fun sup mem => by simp [settled] at mem) flag waits
    rcases informed.waits flag waits with same | ⟨-, is_false⟩
    · exact .inl same
    · exact .inl (is_false.trans (fine ent live idle).symm)
  · exact (informed.waits flag waits).imp id fun owed => ⟨⟨owed.1, acquitted⟩, owed.2⟩

/-- Every move leaves the followers informed. -/
theorem Move.news (move : Move lossy v v') (truth : Truth v) (news : News v) : News v' := by
  cases move with
  | connect => exact news.connect truth
  | hear event quiet =>
    exact news.says [event] fun _ _ _ _ _ _ other mem st => List.mem_singleton.mp mem ▸ quiet.hear_eq st
  | refuse client want turned_down refusal => exact news.refuse turned_down refusal
  | overflow client unknown => exact news.overflow unknown
  | keep inv wanted known waits => exact news.keep truth inv wanted waits
  | join inv wanted known live => exact news.join truth inv wanted live
  | shed inv sheds fewer => exact news.shed sheds fewer
  | place inv places settled => exact news.place places settled
  | announce fresh live stands =>
    exact news.says [_] fun _ _ _ _ _ _ other mem st => List.mem_singleton.mp mem ▸ rfl
  | tell sup revokes live assigned listed seat told quiet => exact news.tell truth live quiet
  | rest =>
    exact fun drv ent client live follows connected =>
      (news drv ent client live follows connected).keeps rfl rfl (fun busy settled => ⟨busy, settled⟩) rfl id
  | settle idle => exact news.settle idle
  | greet sid inv greeted settled => exact news.greet truth greeted settled
  | flags inv roster_eq entry_eq sound complete => exact news.flags truth entry_eq sound complete
  | mark inv live roster_eq entry_eq old_news => exact news.mark truth live entry_eq old_news
  | acquit fine settled => exact news.acquit fine settled

theorem moves_news (moves : Moves lossy v v') (truth : Truth v) (news : News v) : News v' := by
  induction moves with
  | refl => exact news
  | tail before move ih => exact move.news (moves_truth before truth) ih

end Moves

/-! ## Runs -/

/-- Every state of every run leaves the followers informed. -/
theorem Reached.news {cfg : Config} {x : Dispatcher} {calls : List Call} (reached : Reached cfg x calls) :
    News (x.state.stage ∅) := by
  obtain ⟨config, serves⟩ := reached.serves
  refine moves_news serves.does.moves (truth_start config) fun drv ent client live => ?_
  simp [State.stage, Core.entry] at live

/-- What `placeabilityChanges` does: the entries it lists, each once, are the queued ones whose flag
is wrong, and their flags are all it changes. -/
def FlipsExactly (s : Core) : Prop :=
  ∃ changed s', Core.placeabilityChanges s = .ok changed s' ∧ s' = { s with entries := s'.entries } ∧
    changed.Nodup ∧
    (∀ drv, drv ∈ changed ↔
      ∃ ent, s.entry drv = some ent ∧ ent.worker = none ∧ ent.unplaceable = s.placeable ent) ∧
    ∀ drv, s'.entry drv = (s.entry drv).map fun ent =>
      if drv ∈ changed then { ent with unplaceable := !ent.unplaceable } else ent

theorem flipsExactly_of_inv {s : Core} (inv : s.Inv) : FlipsExactly s := by
  obtain ⟨changed, s', ran, -, same, entry_eq, nodup, mem_iff⟩ := inv.placeabilityChanges
  have queued_iff : ∀ drv ent, s.entry drv = some ent → (Core.Disagrees s.placeable ent ↔
      ent.worker = none ∧ ent.unplaceable = s.placeable ent) := by
    intro drv ent live
    refine ⟨fun disagrees => ⟨disagrees.1, disagrees.2.2⟩, fun wrong => ⟨wrong.1, ?_, wrong.2⟩⟩
    exact inv.queues.followed drv (Set.notMem_empty drv) ent live wrong.1
  refine ⟨changed, s', ran, same, nodup, fun drv => ?_, fun drv => ?_⟩
  · rw [mem_iff]
    exact exists_congr fun ent => and_congr_right fun live => queued_iff drv ent live
  · rw [entry_eq]
    cases live : s.entry drv with
    | none => rfl
    | some ent =>
      simp only [Option.map_some, Option.some.injEq]
      split_ifs with flips
      · obtain ⟨found, found_live, idle, followed, wrong⟩ := (mem_iff drv).mp flips
        cases live.symm.trans found_live
        rw [Core.withFlag, if_pos ⟨idle, followed⟩, wrong]
      · exact Core.withFlag_of_not_disagrees fun disagrees => flips ((mem_iff drv).mpr ⟨ent, live, disagrees⟩)

/-- In every run, the flag of each queued entry says whether some worker could take it; a connected
follower that was told no place since its last Want, which was kept, was told last that nobody takes
it if and only if nobody could.  A client that has cancelled since is no follower, and for that reason
alone it is left out.  The flags are brought up to date by `placeabilityChanges`. -/
theorem waiting_clients_know {cfg : Config} {x : Dispatcher} {calls : List Call}
    (reached : Reached cfg x calls) :
    (∀ drv ent, x.state.core.entry drv = some ent → ent.worker = none →
      ent.unplaceable = !x.state.core.placeable ent) ∧
    (∀ drv ent client newer want older, x.state.core.entry drv = some ent → ent.worker = none →
      client ∈ ent.followers → client ∈ x.state.clients →
      x.state.log = newer ++ .want client want .kept :: older →
      PathKey.ofPath want.drvPath = ent.pathKey →
      (∀ other answer, .want client other answer ∈ newer → PathKey.ofPath other.drvPath ≠ ent.pathKey) →
      (∀ asg, .toClient client (.assigned asg) ∈ newer → PathKey.ofPath asg.drvPath ≠ ent.pathKey) →
      (lastNews newer client ent.pathKey = some true ↔ x.state.core.placeable ent = false)) ∧
    ∀ s out, Core.Reached s out → FlipsExactly s := by
  obtain ⟨config, serves⟩ := reached.serves
  have flags : ∀ drv ent, x.state.core.entry drv = some ent → ent.worker = none →
      ent.unplaceable = !x.state.core.placeable ent :=
    fun drv => serves.does.flags drv (Set.notMem_empty drv)
  refine ⟨flags, ?_, fun s out core_reached => flipsExactly_of_inv core_reached.inv.1⟩
  intro drv ent client newer want older live idle follows connected log_eq key_eq no_want no_place
  have waits : standing (newer ++ .want client want .kept :: older) client ent.pathKey = _ :=
    standing_eq_lastNews key_eq no_want no_place
  rw [← log_eq] at waits
  rcases (reached.news drv ent client live follows connected).waits _ waits with agrees | ⟨owed, -⟩
  · rw [flags drv ent live idle] at agrees
    cases can : x.state.core.placeable ent with
    | true =>
      rw [can] at agrees
      refine iff_of_false (fun told => ?_) nofun
      simp [told] at agrees
    | false =>
      rw [can] at agrees
      refine iff_of_true ?_ rfl
      cases told : lastNews newer client ent.pathKey with
      | none => simp [told] at agrees
      | some unplaceable => simpa [told] using agrees
  · exact owed.elim

/-- A client wants a derivation while no worker is connected. -/
def nobodyThere : List (World × Call) :=
  [(.obliging, .connectClient),
    (.obliging, .clientMsgs 1 [.want { drvPath := "a.drv" }] fun _ => none),
    (.obliging, .applyChunk 0)]

/-- The client of `nobodyThere` was told so. -/
theorem waiting_clients_know_nobodyThere :
    ∃ x ent msg, Reached uncached x (nobodyThere.map Prod.snd) ∧ x.state.core.entry 0 = some ent ∧
      x.state.log = [.toClient 1 msg, .want 1 { drvPath := "a.drv" } .kept] ∧
      x.state.core.placeable ent = false ∧ lastNews [.toClient 1 msg] 1 ent.pathKey = some true := by
  have ends : (runAll uncached nobodyThere {}).bind (fun x =>
      (x.state.core.entry 0).bind fun ent =>
        if x.state.log = [.toClient 1 (unplaceableMsg x.state.core ent), .want 1 { drvPath := "a.drv" } .kept] ∧
            ent.worker = none ∧ ent.followers = [1] ∧ ent.drvPath = "a.drv" ∧ x.state.clients = [1] ∧
            x.state.core.placeable ent = false then
          some ()
        else none) = some () := by
    decide +kernel
  obtain ⟨x, ran, ends⟩ := Option.bind_eq_some_iff.mp ends
  obtain ⟨ent, live, ends⟩ := Option.bind_eq_some_iff.mp ends
  have reached : Reached uncached x (nobodyThere.map Prod.snd) := Reached.runAll (.start ⟨{}, rfl⟩) ran
  split_ifs at ends with shape
  obtain ⟨log_eq, idle, followers_eq, path_eq, clients_eq, cannot⟩ := shape
  refine ⟨x, ent, _, reached, live, log_eq, cannot, ?_⟩
  refine ((waiting_clients_know reached).2.1 0 ent 1 [_] { drvPath := "a.drv" } [] live idle
    (by simp [followers_eq]) (by simp [clients_eq]) log_eq ?_ (by simp) (by simp [unplaceableMsg])).mpr cannot
  rw [Entry.pathKey, path_eq]

end NixGrpcStore.Dispatcher
