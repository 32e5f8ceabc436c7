import NixGrpcStore.TopDown.Explore

/-!
# What must be built

A node is needed if it is a root or if a node that gets built uses it, and it is asked for the keys
that the request and those nodes want.  It must be built if it is rebuilt, if nothing is asked of it,
or if the store neither holds nor can fetch all of it.  The walk decides every node below the roots
once, after its users, and finds the one set of nodes that fits this description.
-/

namespace NixGrpcStore.TopDown

open Finset (mem_filter mem_insert mem_union)
open Relation CountedOrder

variable {Node Key : Type} [LinearOrder Node] {holds : Key → Prop}

namespace Demand

variable (demand : Demand Node Key)

/-- The node is requested, or a node that gets built uses it. -/
def Needed (missing : Finset Node) (node : Node) : Prop :=
  node ∈ demand.roots.names ∨ ∃ user ∈ missing, demand.Uses user node

/-- The key is requested of the node, or a node that gets built asks for it. -/
def Asked (missing : Finset Node) (node : Node) (key : Key) : Prop :=
  demand.Requests node key ∨ ∃ user ∈ missing, demand.Asks user node key

def Rebuilt (node : Node) : Prop := demand.rebuildRoots = true ∧ node ∈ demand.roots.names

/-- A needed node that is rebuilt, of which nothing is asked, or of which not all can be had. -/
def MustBuild (holds : Key → Prop) (missing : Finset Node) (node : Node) : Prop :=
  demand.Needed missing node ∧
    (demand.Rebuilt node ∨ (∀ key, ¬ demand.Asked missing node key) ∨
      ∃ key, demand.Asked missing node key ∧ ¬ holds key)

variable {demand} {missing : Finset Node} {added node : Node}

theorem needed_insert : demand.Needed (insert added missing) node ↔
    demand.Needed missing node ∨ demand.Uses added node := by
  simp only [Needed, mem_insert, exists_eq_or_imp]
  exact (or_congr_right or_comm).trans or_assoc.symm

theorem asked_insert {key : Key} : demand.Asked (insert added missing) node key ↔
    demand.Asked missing node key ∨ demand.Asks added node key := by
  simp only [Asked, mem_insert, exists_eq_or_imp]
  exact (or_congr_right or_comm).trans or_assoc.symm

/-- Whether a node must be built depends only on those that use it. -/
theorem mustBuild_congr {missing other : Finset Node}
    (same : ∀ user, demand.Uses user node → (user ∈ missing ↔ user ∈ other)) :
    demand.MustBuild holds missing node ↔ demand.MustBuild holds other node := by
  have needed_iff : demand.Needed missing node ↔ demand.Needed other node := by
    apply or_congr_right
    apply exists_congr
    exact fun user => and_congr_left (same user)
  have asked_iff : ∀ key, demand.Asked missing node key ↔ demand.Asked other node key := by
    intro key
    apply or_congr_right
    apply exists_congr
    exact fun user => and_congr_left fun asks => same user asks.uses
  simp only [MustBuild, needed_iff, asked_iff]

end Demand

/-- Every fetch asks only for keys that no earlier answer had and that a needed node is asked for
which is not rebuilt. -/
def FetchesAsked (demand : Demand Node Key) (missing : Finset Node) (calls : List (StoreCall Key)) : Prop :=
  ∀ before asked answer after, calls = before ++ .fetch asked answer :: after → ∀ key ∈ asked,
    (∀ call ∈ before, key ∉ call.answer) ∧
      ∃ node, demand.Needed missing node ∧ ¬ demand.Rebuilt node ∧ demand.Asked missing node key

namespace FetchesAsked

variable {demand : Demand Node Key} {missing : Finset Node} {calls : List (StoreCall Key)}

/-- A call is made; if it is a fetch, its keys must be asked for and unknown. -/
theorem append (fetches : FetchesAsked demand missing calls) (call : StoreCall Key)
    (fits : ∀ asked answer, call = .fetch asked answer → ∀ key ∈ asked,
      (∀ call ∈ calls, key ∉ call.answer) ∧
        ∃ node, demand.Needed missing node ∧ ¬ demand.Rebuilt node ∧ demand.Asked missing node key) :
    FetchesAsked demand missing (calls ++ [call]) := by
  intro before asked answer after split key mem
  rcases List.eq_nil_or_concat after with rfl | ⟨rest, last, rfl⟩
  · obtain ⟨rfl, same⟩ := List.append_inj' split rfl
    exact fits asked answer (List.cons.inj same).1 key mem
  · rw [List.concat_eq_append, ← List.cons_append, ← List.append_assoc] at split
    obtain ⟨calls_eq, -⟩ := List.append_inj' split rfl
    exact fetches before asked answer rest calls_eq key mem

theorem insert_missing (fetches : FetchesAsked demand missing calls) (node : Node) :
    FetchesAsked demand (insert node missing) calls := by
  intro before asked answer after split key mem
  obtain ⟨unknown, asker, needed, not_rebuilt, asks⟩ := fetches before asked answer after split key mem
  exact ⟨unknown, asker, Demand.needed_insert.mpr (.inl needed), not_rebuilt, Demand.asked_insert.mpr (.inl asks)⟩

end FetchesAsked

namespace BuildWalk

variable {demand : Demand Node Key} {held fetchable : Key → Prop}

/-! ## What a walk knows -/

/-- What was decided so far is what must be built. -/
structure Judged (demand : Demand Node Key) (holds : Key → Prop) (walk : BuildWalk Node Key) : Prop where
  needed_iff : ∀ node, (walk.needs node).isSome ↔ demand.Needed walk.missing node
  asked_iff : ∀ node key, key ∈ lookup walk.needs node ↔ demand.Asked walk.missing node key
  rebuilt_iff : ∀ node, node ∈ walk.rebuilt ↔ demand.Rebuilt node
  missing_decided : ∀ node ∈ walk.missing, node ∈ walk.decided
  missing_iff : ∀ node ∈ walk.decided, node ∈ walk.missing ↔ demand.MustBuild holds walk.missing node

/-- What the store answered is true, and it was asked for all keys of the queried nodes. -/
structure Stocked (demand : Demand Node Key) (held fetchable : Key → Prop) (reach : List Node)
    (walk : BuildWalk Node Key) : Prop where
  requested : ∀ node key, demand.Requests node key → key ∈ lookup walk.anyNeeds node
  anyNeeds : ∀ user ∈ reach, ∀ node key, demand.Asks user node key → key ∈ lookup walk.anyNeeds node
  sound : ∀ key ∈ walk.valid, held key ∨ fetchable key
  complete : ∀ node ∈ walk.queried, ∀ key ∈ lookup walk.anyNeeds node, held key → key ∈ walk.valid
  answers : ∀ call ∈ walk.calls, ∀ key ∈ call.answer, key ∈ walk.valid
  fetches : FetchesAsked demand walk.missing walk.calls

/-- Of what is asked of the node, all that can be had is known. -/
def Informed (demand : Demand Node Key) (holds : Key → Prop) (walk : BuildWalk Node Key) (node : Node) : Prop :=
  demand.Needed walk.missing node → ¬ demand.Rebuilt node →
    ∀ key, demand.Asked walk.missing node key → holds key → key ∈ walk.valid

variable [DecidableEq Key] {walk : BuildWalk Node Key} {node : Node}

/-- A node is judged as it must be. -/
theorem Judged.builds_iff (judged : Judged demand holds walk)
    (sound : ∀ key ∈ walk.valid, holds key) (informed : Informed demand holds walk node) :
    ((walk.needs node).isSome && !walk.isHeld node) = true ↔ demand.MustBuild holds walk.missing node := by
  have empty_iff : lookup walk.needs node = ∅ ↔ ∀ key, ¬ demand.Asked walk.missing node key := by
    simp only [Finset.eq_empty_iff_forall_notMem, judged.asked_iff]
  rw [Bool.and_eq_true, judged.needed_iff, Demand.MustBuild]
  apply and_congr_right
  intro needed
  have subset_iff : ¬ demand.Rebuilt node →
      (lookup walk.needs node ⊆ walk.valid ↔ ∀ key, demand.Asked walk.missing node key → holds key) := by
    intro kept
    constructor
    · exact fun sub key asked => sound key (sub ((judged.asked_iff node key).mpr asked))
    · intro all key mem
      have asked := (judged.asked_iff node key).mp mem
      exact informed needed kept key asked (all key asked)
  by_cases rebuilt : demand.Rebuilt node
  · simp [isHeld, judged.rebuilt_iff, rebuilt]
  · simp only [isHeld, judged.rebuilt_iff, rebuilt, not_false_eq_true, decide_true, Bool.true_and, ne_eq, empty_iff,
      subset_iff rebuilt, Bool.not_eq_true', Bool.and_eq_false_iff, decide_eq_false_iff_not, not_not, false_or,
      not_forall, exists_prop, not_exists]

/-! ## Asking the store -/

section Store

variable [DecidablePred held] [DecidablePred fetchable] {query fetch : Finset Key → Finset Key} {reach : List Node}

omit [LinearOrder Node] in
theorem mem_foldl_union (keysOf : Node → Finset Key) (nodes : List Node) (keys : Finset Key) (key : Key) :
    key ∈ nodes.foldl (fun keys node => keys ∪ keysOf node) keys ↔ key ∈ keys ∨ ∃ node ∈ nodes, key ∈ keysOf node := by
  induction nodes generalizing keys with
  | nil => simp
  | cons node nodes ih => simp [ih, or_assoc]

omit [DecidablePred fetchable] in
/-- After a batch was queried, all that the store holds of the keys of the needed nodes is known. -/
theorem Stocked.queryAhead (stocked : Stocked demand held fetchable reach walk)
    (store : ∀ asked, query asked = asked.filter held) (budget : ℕ) (needed : List Node) :
    Stocked demand held fetchable reach (walk.queryAhead query budget needed) ∧
      ∃ valid queried calls, walk.queryAhead query budget needed =
          { walk with valid := valid, queried := queried, calls := calls } ∧
        ∀ node ∈ needed, node ∈ queried := by
  obtain ⟨-, -, queried_eq, needed_queried⟩ := @nextBatch_spec _ _ walk.below needed walk.queried budget
  rw [BuildWalk.queryAhead]
  generalize nextBatch needed walk.below walk.queried budget = next at *
  obtain ⟨batch, queried⟩ := next
  simp only at queried_eq needed_queried ⊢
  have mem_keys := mem_foldl_union (fun node => lookup walk.anyNeeds node) batch ∅
  generalize batch.foldl (fun keys node => keys ∪ lookup walk.anyNeeds node) ∅ = keys at *
  have queried_iff : ∀ node, node ∈ queried ↔ node ∈ walk.queried ∨ node ∈ batch := by simp [queried_eq]
  split_ifs with none
  · refine ⟨⟨stocked.requested, stocked.anyNeeds, stocked.sound, ?_, stocked.answers, stocked.fetches⟩,
      walk.valid, queried, walk.calls, rfl, needed_queried⟩
    intro node mem key its holds
    rcases (queried_iff node).mp mem with old | new
    · exact stocked.complete node old key its holds
    · have in_keys : key ∈ keys := (mem_keys key).mpr (.inr ⟨node, new, its⟩)
      simp [none] at in_keys
  · refine ⟨⟨stocked.requested, stocked.anyNeeds, ?_, ?_, ?_, ?_⟩, _, queried, _, rfl, needed_queried⟩
    · intro key mem
      simp only [store, mem_union, mem_filter] at mem
      rcases mem with old | ⟨-, holds⟩
      · exact stocked.sound key old
      · exact .inl holds
    · intro node mem key its holds
      simp only [store, mem_union, mem_filter]
      rcases (queried_iff node).mp mem with old | new
      · exact .inl (stocked.complete node old key its holds)
      · exact .inr ⟨(mem_keys key).mpr (.inr ⟨node, new, its⟩), holds⟩
    · intro call mem key answered
      simp only [mem_union]
      rcases List.mem_append.mp mem with old | new
      · exact .inl (stocked.answers call old key answered)
      · rw [List.mem_singleton.mp new] at answered
        exact .inr answered
    · exact stocked.fetches.append _ fun asked answer same => by cases same

theorem mem_lacking (walk : BuildWalk Node Key) (needed : List Node) (key : Key) :
    key ∈ walk.lacking needed ↔ ∃ node ∈ needed,
      node ∉ walk.rebuilt ∧ key ∈ lookup walk.needs node ∧ key ∉ walk.valid := by
  let lacks : Node → Finset Key := fun node => if node ∈ walk.rebuilt then ∅ else lookup walk.needs node \ walk.valid
  have fold_eq : walk.lacking needed = needed.foldl (fun keys node => keys ∪ lacks node) ∅ := by
    apply congrArg (fun step => needed.foldl step ∅)
    funext keys node
    by_cases rebuilt : node ∈ walk.rebuilt <;> simp [lacks, rebuilt]
  rw [fold_eq, mem_foldl_union]
  simp only [Finset.notMem_empty, false_or, lacks]
  apply exists_congr
  intro node
  by_cases rebuilt : node ∈ walk.rebuilt <;> simp [rebuilt]

omit [DecidablePred held] in
/-- After the lacking keys were fetched, all that can be had of what is asked of a needed node is known. -/
theorem Stocked.fetchLacking (stocked : Stocked demand held fetchable reach walk)
    (judged : Judged demand (fun key => held key ∨ fetchable key) walk)
    (store : ∀ asked, fetch asked = asked.filter fetchable) {needed : List Node}
    (needs : ∀ node ∈ needed, demand.Needed walk.missing node)
    (queried : ∀ node ∈ needed, node ∈ walk.queried)
    (decided : ∀ node ∈ walk.decided, node ∈ reach) :
    Stocked demand held fetchable reach (walk.fetchLacking fetch needed) ∧
      ∃ valid calls, walk.fetchLacking fetch needed = { walk with valid := valid, calls := calls } ∧
        ∀ node ∈ needed, ¬ demand.Rebuilt node → ∀ key, demand.Asked walk.missing node key →
          held key ∨ fetchable key → key ∈ valid := by
  have known : ∀ node ∈ needed, ∀ key, demand.Asked walk.missing node key → held key → key ∈ walk.valid := by
    rintro node mem key (requests | ⟨user, missing, asks⟩) holds
    · exact stocked.complete node (queried node mem) key (stocked.requested node key requests) holds
    · have reached := decided user (judged.missing_decided user missing)
      exact stocked.complete node (queried node mem) key (stocked.anyNeeds user reached node key asks) holds
  have lacking_iff := mem_lacking walk needed
  simp only [judged.rebuilt_iff, judged.asked_iff] at lacking_iff
  rw [BuildWalk.fetchLacking]
  generalize walk.lacking needed = lacking at *
  split_ifs with none
  · refine ⟨stocked, walk.valid, walk.calls, rfl, ?_⟩
    intro node mem kept key asked _
    by_contra unknown
    have in_lacking := (lacking_iff key).mpr ⟨node, mem, kept, asked, unknown⟩
    simp [none] at in_lacking
  · refine ⟨⟨stocked.requested, stocked.anyNeeds, ?_, ?_, ?_, ?_⟩, _, _, rfl, ?_⟩
    · intro key mem
      simp only [store, mem_union, mem_filter] at mem
      rcases mem with old | ⟨-, holds⟩
      · exact stocked.sound key old
      · exact .inr holds
    · intro node mem key its holds
      exact Finset.mem_union_left _ (stocked.complete node mem key its holds)
    · intro call mem key answered
      simp only [mem_union]
      rcases List.mem_append.mp mem with old | new
      · exact .inl (stocked.answers call old key answered)
      · rw [List.mem_singleton.mp new] at answered
        exact .inr answered
    · refine stocked.fetches.append _ fun asked answer same key mem => ?_
      cases same
      obtain ⟨node, in_needed, kept, asks, unknown⟩ := (lacking_iff key).mp mem
      exact ⟨fun call made answered => unknown (stocked.answers call made key answered),
        node, needs node in_needed, kept, asks⟩
    · intro node mem kept key asked holds
      simp only [store, mem_union, mem_filter]
      by_cases old : key ∈ walk.valid
      · exact .inl old
      · rcases holds with holds | holds
        · exact absurd (known node mem key asked holds) old
        · exact .inr ⟨(lacking_iff key).mpr ⟨node, mem, kept, asked, old⟩, holds⟩

end Store

/-! ## Deciding a level -/

omit [DecidableEq Key] in
theorem foldl_release (children : List Node) (distinct : children.Nodup) (walk : BuildWalk Node Key)
    (next : List Node) :
    ∃ users, children.foldl release (walk, next) =
        ({ walk with users := users }, next ++ children.filter fun child => (users child).getD 0 = 0) ∧
      ∀ node, (users node).getD 0 =
        if node ∈ children then (walk.users node).getD 0 - 1 else (walk.users node).getD 0 := by
  induction children generalizing walk next with
  | nil => exact ⟨walk.users, by simp, by simp⟩
  | cons child children ih =>
    obtain ⟨apart, distinct⟩ := List.nodup_cons.mp distinct
    let left := (walk.users child).getD 0 - 1
    obtain ⟨users, result, users_eq⟩ := ih distinct
      { walk with users := Function.update walk.users child (some left) }
      (if left = 0 then next ++ [child] else next)
    have child_left : (users child).getD 0 = left := by simp [users_eq, apart]
    refine ⟨users, ?_, ?_⟩
    · rw [List.foldl_cons, release, result, List.filter_cons]
      by_cases last : left = 0 <;> simp [child_left, last]
    · intro node
      rw [users_eq]
      by_cases same : node = child
      · subst same
        simp [apart, left]
      · simp [same]

/-- Where a walk stands while it decides a level: `level` is what is left of it. -/
structure Deciding (demand : Demand Node Key) (held fetchable : Key → Prop) (reach : List Node)
    (walk : BuildWalk Node Key) (level next : List Node) : Prop where
  used_eq : ∀ node ∈ reach, walk.used node = some (demand.uses node)
  closed : ∀ user ∈ reach, ∀ node, demand.Uses user node → node ∈ reach
  standing : CountedOrder.Standing demand.Uses reach walk.decided (level ++ next) fun node => (walk.users node).getD 0
  judged : Judged demand (fun key => held key ∨ fetchable key) walk
  stocked : Stocked demand held fetchable reach walk

/-- What one node is judged to be. -/
def judge (walk : BuildWalk Node Key) (node : Node) (uses : List (Node × List Key)) : BuildWalk Node Key :=
  if (walk.needs node).isSome && !walk.isHeld node then
    { walk with
      decided := walk.decided ++ [node]
      missing := insert node walk.missing
      needs := uses.foldl (fun needs use => insertKeys needs use.1 use.2.toFinset) walk.needs }
  else { walk with decided := walk.decided ++ [node] }

theorem decideOne_eq {uses : Dict Node (List Key)}
    (used_eq : walk.used node = some uses) (next : List Node) :
    decideOne (walk, next) node = uses.names.foldl release (walk.judge node uses.entries, next) := by
  have below_eq : (walk.judge node uses.entries).below node = uses.names := by
    simp only [below, judge]
    split_ifs <;> simp [used_eq]
  rw [← below_eq]
  simp only [decideOne, used_eq, Option.map_some, Option.getD_some]
  rfl

/-- The judgement of one node, whose users were all judged before. -/
theorem Judged.judge (judged : Judged demand holds walk)
    (sound : ∀ key ∈ walk.valid, holds key) (informed : Informed demand holds walk node)
    (unused : ∀ other ∈ walk.decided, ¬ demand.Uses node other) (no_loop : ¬ demand.Uses node node)
    (not_decided : node ∉ walk.decided) :
    Judged demand holds (walk.judge node (demand.uses node).entries) := by
  have builds := judged.builds_iff sound informed
  have not_missing : node ∉ walk.missing := fun mem => not_decided (judged.missing_decided node mem)
  rw [BuildWalk.judge]
  split_ifs with build
  · obtain ⟨some_iff, mem_iff⟩ := foldl_insertKeys (fun use => use.2.toFinset) (demand.uses node).entries walk.needs
    have same : ∀ other, ¬ demand.Uses node other →
        (demand.MustBuild holds (insert node walk.missing) other ↔ demand.MustBuild holds walk.missing other) := by
      intro other not_used
      apply Demand.mustBuild_congr
      intro user uses
      have not_node : user ≠ node := fun same => not_used (same ▸ uses)
      simp [not_node]
    refine ⟨?_, ?_, judged.rebuilt_iff, ?_, ?_⟩
    · intro other
      rw [Demand.needed_insert, ← judged.needed_iff]
      exact some_iff other
    · intro other key
      rw [Demand.asked_insert, ← judged.asked_iff]
      simpa only [Demand.Asks, List.mem_toFinset] using mem_iff other key
    · intro other mem
      rcases mem_insert.mp mem with rfl | old
      · exact List.mem_append_right _ List.mem_cons_self
      · exact List.mem_append_left _ (judged.missing_decided other old)
    · intro other mem
      rcases List.mem_append.mp mem with old | new
      · have not_node : other ≠ node := fun same => not_decided (same ▸ old)
        rw [same other (unused other old), ← judged.missing_iff other old]
        simp [not_node]
      · rw [List.mem_singleton.mp new, same node no_loop, ← builds]
        simp [build]
  · refine ⟨judged.needed_iff, judged.asked_iff, judged.rebuilt_iff, ?_, ?_⟩
    · exact fun other mem => List.mem_append_left _ (judged.missing_decided other mem)
    · intro other mem
      rcases List.mem_append.mp mem with old | new
      · exact judged.missing_iff other old
      · rw [List.mem_singleton.mp new]
        exact ⟨fun missing => absurd missing not_missing, fun must => absurd (builds.mpr must) build⟩

/-- What is known of a node that does not use the judged one stays known. -/
theorem Informed.judge {other : Node}
    (informed : Informed demand holds walk other) (unused : ¬ demand.Uses node other) :
    Informed demand holds (walk.judge node (demand.uses node).entries) other := by
  rw [BuildWalk.judge]
  split_ifs
  · intro needed kept key asked can
    have needed := (Demand.needed_insert.mp needed).resolve_right unused
    have asked := (Demand.asked_insert.mp asked).resolve_right fun asks => unused asks.uses
    exact informed needed kept key asked can
  · exact informed

variable {reach : List Node}

theorem Stocked.judge
    (stocked : Stocked demand held fetchable reach walk) (node : Node) (uses : List (Node × List Key)) :
    Stocked demand held fetchable reach (walk.judge node uses) := by
  obtain ⟨requested, anyNeeds, sound, complete, answers, fetches⟩ := stocked
  rw [BuildWalk.judge]
  split_ifs
  · exact ⟨requested, anyNeeds, sound, complete, answers, fetches.insert_missing node⟩
  · exact ⟨requested, anyNeeds, sound, complete, answers, fetches⟩

theorem judge_frame (walk : BuildWalk Node Key) (node : Node) (uses : List (Node × List Key)) :
    (walk.judge node uses).used = walk.used ∧ (walk.judge node uses).users = walk.users ∧
      (walk.judge node uses).decided = walk.decided ++ [node] := by
  rw [judge]
  split_ifs <;> exact ⟨rfl, rfl, rfl⟩

/-- One node of the level is decided. -/
theorem Deciding.decideOne {level next : List Node}
    (deciding : Deciding demand held fetchable reach walk (node :: level) next)
    (informed : ∀ other ∈ node :: level, Informed demand (fun key => held key ∨ fetchable key) walk other) :
    ∃ walk' next', BuildWalk.decideOne (walk, next) node = (walk', next') ∧
      Deciding demand held fetchable reach walk' level next' ∧
      (∀ other ∈ level, Informed demand (fun key => held key ∨ fetchable key) walk' other) ∧
      walk'.decided = walk.decided ++ [node] := by
  obtain ⟨inside, not_decided, -⟩ := @CountedOrder.Standing.waits _ _ _ _ _ _ _ _ deciding.standing node (by simp)
  have unused : ∀ other ∈ walk.decided ++ (node :: level ++ next), ¬ demand.Uses node other :=
    fun other mem => deciding.standing.no_edge inside not_decided mem
  obtain ⟨used_same, users_same, decided_eq⟩ := judge_frame walk node (demand.uses node).entries
  obtain ⟨users, result, users_eq⟩ := foldl_release (demand.uses node).names (demand.uses node).names_nodup
    (walk.judge node (demand.uses node).entries) next
  have judged := deciding.judged.judge deciding.stocked.sound (informed node List.mem_cons_self)
    (fun other mem => unused other (List.mem_append_left _ mem)) (unused node (by simp)) not_decided
  have waiting := deciding.standing
  rw [List.cons_append] at waiting
  have standing := waiting.step (demand.uses node).names_nodup (fun _ => Iff.rfl)
    (deciding.closed node inside) (users_same ▸ users_eq)
  have stocked := deciding.stocked.judge node (demand.uses node).entries
  refine ⟨_, _, (decideOne_eq (deciding.used_eq node inside) next).trans result, ?_, ?_, decided_eq⟩
  · refine ⟨fun other mem => (congrFun used_same other).trans (deciding.used_eq other mem), deciding.closed, ?_, ?_, ?_⟩
    · rw [List.append_assoc] at standing
      exact decided_eq ▸ standing
    · exact ⟨judged.needed_iff, judged.asked_iff, judged.rebuilt_iff, judged.missing_decided, judged.missing_iff⟩
    · exact ⟨stocked.requested, stocked.anyNeeds, stocked.sound, stocked.complete, stocked.answers, stocked.fetches⟩
  · intro other mem
    exact (informed other (List.mem_cons_of_mem _ mem)).judge (unused other (by simp [mem]))

/-- All nodes of a level are decided. -/
theorem Deciding.decide (level : List Node) {next : List Node}
    (deciding : Deciding demand held fetchable reach walk level next)
    (informed : ∀ node ∈ level, Informed demand (fun key => held key ∨ fetchable key) walk node) :
    Deciding demand held fetchable reach (level.foldl BuildWalk.decideOne (walk, next)).1 []
        (level.foldl BuildWalk.decideOne (walk, next)).2 ∧
      (level.foldl BuildWalk.decideOne (walk, next)).1.decided = walk.decided ++ level := by
  induction level generalizing walk next with
  | nil => exact ⟨deciding, by simp⟩
  | cons node level ih =>
    obtain ⟨walk', next', result, deciding', informed', decided_eq⟩ := deciding.decideOne informed
    rw [List.foldl_cons, result]
    obtain ⟨last, all_decided⟩ := ih deciding' informed'
    exact ⟨last, by rw [all_decided, decided_eq, List.append_assoc, List.singleton_append]⟩

/-! ## Rounds -/

section Rounds

variable [DecidablePred held] [DecidablePred fetchable] {query fetch : Finset Key → Finset Key} {reach : List Node}

section Deciding

variable (deciding : Deciding demand held fetchable reach walk walk.level [])
  (query_eq : ∀ asked, query asked = asked.filter held)
  (fetch_eq : ∀ asked, fetch asked = asked.filter fetchable)
include deciding query_eq fetch_eq

/-- Before a level is decided, all that can be had of what is asked of its nodes is known. -/
theorem Deciding.ask
    (budget : ℕ) {needed : List Node}
    (needed_eq : needed = walk.level.filter fun node => (walk.needs node).isSome) {asked : BuildWalk Node Key}
    (asked_eq : asked = (walk.queryAhead query budget needed).fetchLacking fetch needed) :
    Deciding demand held fetchable reach asked asked.level [] ∧ asked.level = walk.level ∧
      asked.decided = walk.decided ∧
      ∀ node ∈ asked.level, Informed demand (fun key => held key ∨ fetchable key) asked node := by
  have needed_iff : ∀ node, node ∈ needed ↔ node ∈ walk.level ∧ demand.Needed walk.missing node := by
    intro node
    rw [needed_eq, List.mem_filter, deciding.judged.needed_iff]
  have reached : ∀ node ∈ walk.decided, node ∈ reach := fun node mem =>
    ((deciding.standing.mem_iff node).mp (List.mem_append_left _ mem)).1
  obtain ⟨used_eq, closed, standing, judged, stocked⟩ := deciding
  obtain ⟨stocked, valid, queried, calls, queried_eq, in_queried⟩ := stocked.queryAhead query_eq budget needed
  rw [queried_eq] at stocked asked_eq
  obtain ⟨stocked, valid', calls', fetched_eq, informed⟩ := stocked.fetchLacking
    ⟨judged.needed_iff, judged.asked_iff, judged.rebuilt_iff, judged.missing_decided, judged.missing_iff⟩ fetch_eq
    (fun node mem => ((needed_iff node).mp mem).2) in_queried reached
  rw [← asked_eq] at fetched_eq stocked
  subst fetched_eq
  refine ⟨⟨used_eq, closed, standing, ?_, stocked⟩, rfl, rfl, ?_⟩
  · exact ⟨judged.needed_iff, judged.asked_iff, judged.rebuilt_iff, judged.missing_decided, judged.missing_iff⟩
  · exact fun node mem needs => informed node ((needed_iff node).mpr ⟨mem, needs⟩)

/-- A round decides the level and leaves the one below. -/
theorem Deciding.round (budget : ℕ) :
    Deciding demand held fetchable reach (walk.round query fetch budget) (walk.round query fetch budget).level [] ∧
      (walk.round query fetch budget).decided = walk.decided ++ walk.level := by
  rw [BuildWalk.round]
  generalize asked_eq : (walk.queryAhead query budget _).fetchLacking fetch _ = asked
  obtain ⟨asking, level_eq, asked_decided, informed⟩ := deciding.ask query_eq fetch_eq budget rfl asked_eq.symm
  obtain ⟨last, decided_eq⟩ := Deciding.decide asked.level asking informed
  obtain ⟨used_eq, closed, standing, judged, stocked⟩ := last
  rw [BuildWalk.decide]
  refine ⟨⟨used_eq, closed, ?_, ?_, ?_⟩, ?_⟩
  · rw [List.append_nil]
    exact standing
  · exact ⟨judged.needed_iff, judged.asked_iff, judged.rebuilt_iff, judged.missing_decided, judged.missing_iff⟩
  · exact ⟨stocked.requested, stocked.anyNeeds, stocked.sound, stocked.complete, stocked.answers, stocked.fetches⟩
  · rw [← level_eq, ← asked_decided]
    exact decided_eq

/-- With enough fuel the rounds end. -/
theorem Deciding.run (budget fuel : ℕ) (enough : reach.length ≤ walk.decided.length + fuel) :
    ∃ last, walk.run query fetch budget fuel = some last ∧ Deciding demand held fetchable reach last [] [] := by
  induction fuel generalizing walk with
  | zero =>
    have length_le := deciding.standing.length_le
    have none : walk.level = [] := by
      rw [← List.length_eq_zero_iff]
      simp only [List.append_nil] at length_le
      omega
    exact ⟨walk, by rw [BuildWalk.run, if_pos none], none ▸ deciding⟩
  | succ fuel ih =>
    rw [BuildWalk.run]
    split_ifs with none
    · exact ⟨walk, rfl, none ▸ deciding⟩
    · obtain ⟨next, decided_eq⟩ := deciding.round query_eq fetch_eq budget
      apply ih next
      have := List.length_pos_iff.mpr none
      rw [decided_eq, List.length_append]
      omega

end Deciding

end Rounds

/-! ## The whole walk -/

omit [DecidableEq Key] in
/-- The roots that no node uses are the nodes below the roots that none of them uses. -/
theorem Explored.level_iff {start : BuildWalk Node Key}
    (explored : Explored demand start walk reach []) (node : Node) :
    node ∈ demand.roots.names.filter (fun root => (walk.users root).isNone) ↔
      node ∈ reach ∧ (walk.users node).getD 0 = 0 := by
  rw [List.mem_filter, explored.visited_iff]
  constructor
  · rintro ⟨root, none⟩
    exact ⟨⟨node, root, .refl⟩, by rw [Option.isNone_iff_eq_none.mp none]; rfl⟩
  · rintro ⟨⟨root, mem, path⟩, no_user⟩
    rw [explored.users_eq] at no_user ⊢
    have closed : openEdges demand.Uses reach [] node = 0 := by
      split_ifs at no_user with closed
      · exact closed
      · exact no_user
    rw [if_pos closed]
    refine ⟨?_, rfl⟩
    cases path with
    | refl => exact mem
    | tail path uses =>
      have user_in := (explored.visited_iff _).mpr ⟨root, mem, path⟩
      exact absurd (openEdges_eq_zero.mp closed _ user_in uses) (by simp)

/-- Before the exploration the roots are needed, and asked for what is requested of them. -/
theorem judged_start (demand : Demand Node Key) (holds : Key → Prop) {start : BuildWalk Node Key}
    (start_eq : start = demand.roots.entries.foldl (enterRoot demand.rebuildRoots) {}) :
    Judged demand holds start ∧ (∀ node key, demand.Requests node key → key ∈ lookup start.anyNeeds node) ∧
      ∃ rebuilt needs, start = { rebuilt := rebuilt, needs := needs, anyNeeds := needs } := by
  obtain ⟨rebuilt, needs, fold_eq, rebuilt_iff, needs_eq⟩ :=
    foldl_enterRoot demand.rebuildRoots demand.roots.entries ({} : BuildWalk Node Key) rfl
  obtain ⟨some_iff, mem_iff⟩ := foldl_insertKeys
    (fun entry => if demand.rebuildRoots then ∅ else entry.2.toFinset) demand.roots.entries fun _ => none
  rw [← needs_eq] at some_iff mem_iff
  have requested_iff : ∀ node key, key ∈ lookup needs node ↔ demand.Requests node key := by
    intro node key
    rw [mem_iff, Demand.Requests]
    cases demand.rebuildRoots <;> simp [lookup]
  rw [fold_eq] at start_eq
  subst start_eq
  refine ⟨⟨?_, ?_, ?_, by simp, by simp⟩, fun node key => (requested_iff node key).mpr, rebuilt, needs, rfl⟩
  · intro node
    rw [some_iff]
    simp [Demand.Needed, Dict.names]
  · intro node key
    rw [requested_iff]
    simp [Demand.Asked]
  · intro node
    rw [rebuilt_iff]
    simp [Demand.Rebuilt, Dict.names]

/-- The walk starts with every node below the roots undecided. -/
theorem make_deciding {graph : Finset Node} (inside : ∀ node, demand.Reached node → node ∈ graph) {fuel : ℕ}
    (enough : work demand graph [] demand.roots.names.reverse ≤ fuel) :
    ∃ walk reach, make demand.roots demand.rebuildRoots demand.uses fuel = some walk ∧
      Deciding demand held fetchable reach walk walk.level [] ∧ walk.decided = [] ∧
      ∀ node, node ∈ reach ↔ demand.Reached node := by
  generalize start_eq : demand.roots.entries.foldl (enterRoot demand.rebuildRoots) ({} : BuildWalk Node Key) = start
  obtain ⟨judged, requested, rebuilt, needs, start_fields⟩ :=
    judged_start demand (fun key => held key ∨ fetchable key) start_eq.symm
  have initial : Explored demand start start [] demand.roots.names.reverse := by
    refine ⟨rfl, List.nodup_nil, ?_, ?_, by simp, by simp, ?_, fun _ _ mem => mem, by simp⟩
    · simp [start_fields]
    · exact fun node mem => ⟨node, by simpa using mem, .refl⟩
    · simp [start_fields, openEdges]
  obtain ⟨walk, reach, explored_eq, explored⟩ := initial.explore inside fuel enough
  have walk_eq := explored.frame
  rw [start_fields] at walk_eq judged
  generalize walk.used = used, walk.users = users, walk.anyNeeds = anyNeeds at walk_eq
  refine ⟨{ walk with level := demand.roots.names.filter fun root => (walk.users root).isNone }, reach, ?_, ?_, ?_,
    explored.visited_iff⟩
  · rw [make, start_eq, explored_eq]
    rfl
  · refine ⟨?_, ?_, ?_, ?_, ?_⟩
    · intro node mem
      exact (explored.used_eq node).trans (if_pos mem)
    · intro user mem node uses
      simpa using explored.closed user mem node uses
    · rw [List.append_nil]
      have none_decided : walk.decided = [] := by rw [walk_eq]
      rw [none_decided]
      refine Standing.initial explored.distinct (demand.roots.names_nodup.filter _) ?_ explored.level_iff
      intro node
      simp only [explored.users_eq]
      split_ifs with closed
      · exact closed.symm
      · rfl
    · rw [walk_eq]
      exact ⟨judged.needed_iff, judged.asked_iff, judged.rebuilt_iff, judged.missing_decided, judged.missing_iff⟩
    · refine ⟨fun node key requests => explored.start_needs node key (requested node key requests),
        explored.anyNeeds, ?_, ?_, ?_, ?_⟩
      · simp [walk_eq]
      · simp [walk_eq]
      · simp [walk_eq]
      · intro before asked answer after split
        simp [walk_eq] at split
  · rw [walk_eq]

end BuildWalk

/-- At most one set of nodes of a graph without cycles is the set of those that must be built. -/
theorem mustBuild_unique {demand : Demand Node Key} {graph missing other : Finset Node}
    (acyclic : ∀ node ∈ graph, ¬ TransGen demand.Uses node node) (missing_sub : missing ⊆ graph)
    (other_sub : other ⊆ graph) (missing_iff : ∀ node, node ∈ missing ↔ demand.MustBuild holds missing node)
    (other_iff : ∀ node, node ∈ other ↔ demand.MustBuild holds other node) : other = missing := by
  by_contra differ
  let s : Set Node := {node | ¬ (node ∈ missing ↔ node ∈ other)}
  have sub : ∀ node ∈ s, node ∈ graph := by
    intro node mem
    by_contra outside
    exact mem (iff_of_false (fun mem => outside (missing_sub mem)) fun mem => outside (other_sub mem))
  have finite : s.Finite := graph.finite_toSet.subset sub
  have inhabited : s.Nonempty := by
    by_contra empty
    rw [Set.not_nonempty_iff_eq_empty, Set.eq_empty_iff_forall_notMem] at empty
    exact differ (Finset.ext fun node => (not_not.mp (empty node)).symm)
  -- a first node on which the two differ has the same users in both
  obtain ⟨node, differs, first⟩ := Acyclic.exists_first (fun node mem => acyclic node (sub node mem)) finite inhabited
  apply differs
  rw [missing_iff, other_iff]
  exact Demand.mustBuild_congr fun user uses => by_contra fun differs => first user differs uses

/-- Where something is asked of every needed node, no more must be built if more can be had. -/
theorem mustBuild_antitone {demand : Demand Node Key} {more : Key → Prop}
    {graph missing fewer : Finset Node} (acyclic : ∀ node ∈ graph, ¬ TransGen demand.Uses node node)
    (named : ∀ missing node, demand.Needed missing node → demand.Rebuilt node ∨ ∃ key, demand.Asked missing node key)
    (fuller : ∀ key, holds key → more key) (sub : fewer ⊆ graph)
    (missing_iff : ∀ node, node ∈ missing ↔ demand.MustBuild holds missing node)
    (fewer_iff : ∀ node, node ∈ fewer ↔ demand.MustBuild more fewer node) : fewer ⊆ missing := by
  by_contra extra
  obtain ⟨start, mem, outside⟩ := Finset.not_subset.mp extra
  -- a first node that only `fewer` has is used by nodes of both
  obtain ⟨node, ⟨mem, outside⟩, first⟩ := Acyclic.exists_first (s := {node | node ∈ fewer ∧ node ∉ missing})
    (fun node both => acyclic node (sub both.1)) (fewer.finite_toSet.subset fun _ both => both.1) ⟨start, mem, outside⟩
  have users : ∀ user ∈ fewer, demand.Uses user node → user ∈ missing := fun user inside uses =>
    by_contra fun out => first user ⟨inside, out⟩ uses
  obtain ⟨needed, must⟩ := (fewer_iff node).mp mem
  refine outside ((missing_iff node).mpr ⟨needed.imp_right ?_, ?_⟩)
  · rintro ⟨user, inside, uses⟩
    exact ⟨user, users user inside uses, uses⟩
  rcases must with rebuilt | none_asked | ⟨key, asked, lacking⟩
  · exact .inl rebuilt
  · exact .inl ((named _ node needed).resolve_right fun some => none_asked _ some.choose_spec)
  · refine .inr (.inr ⟨key, asked.imp_right ?_, fun had => lacking (fuller key had)⟩)
    rintro ⟨user, inside, asks⟩
    exact ⟨user, users user inside asks.uses, asks⟩

variable [DecidableEq Key]

section Exact

variable (demand : Demand Node Key) (graph : Finset Node)
  (roots_inside : ∀ root ∈ demand.roots.names, root ∈ graph)
  (graph_closed : ∀ user ∈ graph, ∀ node, demand.Uses user node → node ∈ graph)
  (acyclic : ∀ node ∈ graph, ¬ TransGen demand.Uses node node)
  (held fetchable : Key → Prop) [DecidablePred held] [DecidablePred fetchable]
  (query fetch : Finset Key → Finset Key) (query_eq : ∀ asked, query asked = asked.filter held)
  (fetch_eq : ∀ asked, fetch asked = asked.filter fetchable)

include roots_inside graph_closed acyclic query_eq fetch_eq

/-- With enough fuel a walk ends, and what it finds missing must be built. -/
theorem missingForBuild_ends (budget fuel : ℕ)
    (enough : BuildWalk.work demand graph [] demand.roots.names.reverse + graph.card ≤ fuel) :
    ∃ walk, missingForBuild demand.roots demand.rebuildRoots demand.uses query fetch budget fuel = some walk ∧
      walk.missing ⊆ graph ∧
      (∀ node, node ∈ walk.missing ↔ demand.MustBuild (fun key => held key ∨ fetchable key) walk.missing node) ∧
      walk.decided.Nodup ∧ (∀ node, node ∈ walk.decided ↔ demand.Reached node) ∧
      (∀ before node after, walk.decided = before ++ node :: after →
        ∀ user, demand.Reached user → demand.Uses user node → user ∈ before) ∧
      FetchesAsked demand walk.missing walk.calls := by
  have inside : ∀ node, demand.Reached node → node ∈ graph := by
    rintro node ⟨root, mem, path⟩
    induction path with
    | refl => exact roots_inside root mem
    | tail _ uses ih => exact graph_closed _ ih _ uses
  obtain ⟨start, reach, made, deciding, none_decided, reach_iff⟩ :=
    @BuildWalk.make_deciding _ _ _ demand held fetchable _ graph inside fuel (by omega)
  have reach_le : reach.length ≤ graph.card := by
    rw [← List.toFinset_card_of_nodup deciding.standing.nodes_distinct]
    exact Finset.card_le_card fun node mem => inside node ((reach_iff node).mp (List.mem_toFinset.mp mem))
  obtain ⟨last, ran, ended⟩ := deciding.run query_eq fetch_eq budget fuel (by omega)
  have decided_iff : ∀ node, node ∈ last.decided ↔ demand.Reached node := by
    intro node
    rw [← reach_iff]
    constructor
    · exact fun mem => ((ended.standing.mem_iff node).mp (List.mem_append_left _ mem)).1
    · exact ended.standing.finished fun node mem => acyclic node (inside node ((reach_iff node).mp mem))
  have missing_reached : ∀ node ∈ last.missing, demand.Reached node := fun node mem =>
    (decided_iff node).mp (ended.judged.missing_decided node mem)
  refine ⟨last, ?_, fun node mem => inside node (missing_reached node mem), ?_, ?_, decided_iff, ?_,
    ended.stocked.fetches⟩
  · rw [missingForBuild, made]
    exact ran
  · intro node
    by_cases reached : demand.Reached node
    · exact ended.judged.missing_iff node ((decided_iff node).mpr reached)
    · refine iff_of_false (fun mem => reached (missing_reached node mem)) ?_
      rintro ⟨root | ⟨user, mem, uses⟩, -⟩
      · exact reached ⟨node, root, .refl⟩
      · exact reached ((missing_reached user mem).below uses)
  · simpa using ended.standing.distinct
  · intro before node after split user reached uses
    exact ended.standing.ordered before node after split user ((reach_iff user).mpr reached) uses

/-- On a finite graph without cycles the walk ends, decides every node below the roots once and after
its users, and finds the one set of nodes that must be built; it fetches only what is asked for. -/
theorem missingForBuild_exact :
    ∃ missing ⊆ graph,
      (∀ node, node ∈ missing ↔ demand.MustBuild (fun key => held key ∨ fetchable key) missing node) ∧
      (∀ other ⊆ graph,
        (∀ node, node ∈ other ↔ demand.MustBuild (fun key => held key ∨ fetchable key) other node) →
          other = missing) ∧
      ∃ enough, ∀ budget fuel, enough ≤ fuel → ∃ walk,
        missingForBuild demand.roots demand.rebuildRoots demand.uses query fetch budget fuel = some walk ∧
        walk.missing = missing ∧
        walk.decided.Nodup ∧ (∀ node, node ∈ walk.decided ↔ demand.Reached node) ∧
        (∀ before node after, walk.decided = before ++ node :: after →
          ∀ user, demand.Reached user → demand.Uses user node → user ∈ before) ∧
        FetchesAsked demand missing walk.calls := by
  have ends := missingForBuild_ends demand graph roots_inside graph_closed acyclic held fetchable query fetch
    query_eq fetch_eq
  obtain ⟨first, -, first_sub, first_iff, -⟩ := ends 0 _ le_rfl
  refine ⟨first.missing, first_sub, first_iff, ?_,
    BuildWalk.work demand graph [] demand.roots.names.reverse + graph.card, ?_⟩
  · exact fun other other_sub other_iff => mustBuild_unique acyclic first_sub other_sub first_iff other_iff
  · intro budget fuel enough
    obtain ⟨walk, ran, sub, missing_iff, distinct, decided_iff, ordered, fetches⟩ := ends budget fuel enough
    have same := mustBuild_unique acyclic first_sub sub first_iff missing_iff
    exact ⟨walk, ran, same, distinct, decided_iff, ordered, same ▸ fetches⟩

/-- Where something is asked of every needed node, a store that holds more has the walk build no more, whatever the
budgets. -/
theorem missingForBuild_antitone
    (named : ∀ missing node, demand.Needed missing node → demand.Rebuilt node ∨ ∃ key, demand.Asked missing node key)
    (held' fetchable' : Key → Prop) [DecidablePred held'] [DecidablePred fetchable']
    (fuller : ∀ key, held key ∨ fetchable key → held' key ∨ fetchable' key) :
    ∃ enough, ∀ budget budget' fuel, enough ≤ fuel → ∃ walk walk',
      missingForBuild demand.roots demand.rebuildRoots demand.uses query fetch budget fuel = some walk ∧
      missingForBuild demand.roots demand.rebuildRoots demand.uses (·.filter held') (·.filter fetchable') budget'
        fuel = some walk' ∧
      walk'.missing ⊆ walk.missing := by
  refine ⟨BuildWalk.work demand graph [] demand.roots.names.reverse + graph.card, ?_⟩
  intro budget budget' fuel enough
  obtain ⟨walk, ran, -, missing_iff, -⟩ := missingForBuild_ends demand graph roots_inside graph_closed acyclic held
    fetchable query fetch query_eq fetch_eq budget fuel enough
  obtain ⟨walk', ran', sub, fewer_iff, -⟩ := missingForBuild_ends demand graph roots_inside graph_closed acyclic held'
    fetchable' (·.filter held') (·.filter fetchable') (fun _ => rfl) (fun _ => rfl) budget' fuel enough
  exact ⟨walk, walk', ran, ran', mustBuild_antitone acyclic named fuller sub missing_iff fewer_iff⟩

end Exact

/-- A root that uses two nodes, one of which uses the other. -/
def triangle : Demand ℕ ℕ where
  roots := ⟨[(0, [0])], by simp⟩
  rebuildRoots := false
  uses
    | 0 => ⟨[(1, [10]), (2, [20])], by simp⟩
    | 1 => ⟨[(2, [21])], by simp⟩
    | _ => ⟨[], by simp⟩

theorem triangle_uses : ∀ user node, triangle.Uses user node →
    user < node ∧ node ∈ ({0, 1, 2} : Finset ℕ) ∧ ∃ key, triangle.Asks user node key
  | 0, node, uses => by
    have : node ∈ [1, 2] := uses
    simp at this
    rcases this with rfl | rfl
    · exact ⟨by decide, by decide, 10, (1, [10]), by decide, rfl, by decide⟩
    · exact ⟨by decide, by decide, 20, (2, [20]), by decide, rfl, by decide⟩
  | 1, node, uses => by
    obtain rfl : node = 2 := List.mem_singleton.mp uses
    exact ⟨by decide, by decide, 21, (2, [21]), by decide, rfl, by decide⟩
  | _ + 2, node, uses => absurd uses List.not_mem_nil

theorem triangle_ordered {upper lower : ℕ} (path : TransGen triangle.Uses upper lower) :
    upper < lower := by
  induction path with
  | single uses => exact (triangle_uses _ _ uses).1
  | tail _ uses ih => exact ih.trans (triangle_uses _ _ uses).1

/-- The store holds what the root asks of the third node and can fetch what it asks of the second. -/
theorem missingForBuild_exact_triangle :
    (missingForBuild triangle.roots false triangle.uses (fun asked => asked.filter (· = 20))
        (fun asked => asked.filter (· = 10)) 1 10).map (fun walk => (walk.missing, walk.decided)) =
      some ({0}, [0, 1, 2]) ∧
    ∃ missing ⊆ ({0, 1, 2} : Finset ℕ), ∃ enough, ∀ budget fuel, enough ≤ fuel → ∃ walk,
      missingForBuild triangle.roots false triangle.uses (fun asked => asked.filter (· = 20))
        (fun asked => asked.filter (· = 10)) budget fuel = some walk ∧ walk.missing = missing := by
  obtain ⟨missing, sub, -, -, enough, ends⟩ := missingForBuild_exact triangle {0, 1, 2}
    (by decide) (fun user _ node uses => (triangle_uses user node uses).2.1)
    (fun node _ cycle => lt_irrefl _ (triangle_ordered cycle)) (· = 20) (· = 10)
    (fun asked => asked.filter (· = 20)) (fun asked => asked.filter (· = 10)) (fun _ => rfl) fun _ => rfl
  refine ⟨by decide +kernel, missing, sub, enough, ?_⟩
  intro budget fuel le
  obtain ⟨walk, ran, same, -⟩ := ends budget fuel le
  exact ⟨walk, ran, same⟩

/-- Once the store can fetch the second node, nothing is asked of the third that it does not hold. -/
theorem missingForBuild_antitone_triangle :
    (missingForBuild triangle.roots false triangle.uses (·.filter (· = 20)) (fun _ => ∅) 1 10).map
        BuildWalk.missing = some {0, 1, 2} ∧
    (missingForBuild triangle.roots false triangle.uses (·.filter (· = 20)) (·.filter (· = 10)) 1 10).map
        BuildWalk.missing = some {0} ∧
    ∃ enough, ∀ budget budget' fuel, enough ≤ fuel → ∃ walk walk',
      missingForBuild triangle.roots false triangle.uses (·.filter (· = 20)) (fun _ => ∅) budget fuel = some walk ∧
      missingForBuild triangle.roots false triangle.uses (·.filter (· = 20)) (·.filter (· = 10)) budget'
        fuel = some walk' ∧
      walk'.missing ⊆ walk.missing := by
  refine ⟨by decide +kernel, by decide +kernel, missingForBuild_antitone triangle {0, 1, 2} (by decide)
    (fun user _ node uses => (triangle_uses user node uses).2.1)
    (fun node _ cycle => lt_irrefl _ (triangle_ordered cycle)) (· = 20) (fun _ => False) _ _ (fun _ => rfl)
    (by simp) ?_ (· = 20) (· = 10) (by simp)⟩
  rintro missing node (root | ⟨user, mem, uses⟩)
  · obtain rfl : node = 0 := List.mem_singleton.mp root
    exact .inr ⟨0, .inl ⟨rfl, _, List.mem_cons_self, rfl, List.mem_cons_self⟩⟩
  · obtain ⟨-, -, key, asks⟩ := triangle_uses user node uses
    exact .inr ⟨key, .inr ⟨user, mem, asks⟩⟩

end NixGrpcStore.TopDown
