import NixGrpcStore.Lib.Acyclic

/-!
# Visiting a graph in the order of its edges

The nodes of a finite graph without cycles are done one after the other.  For every node the number
of edges into it from nodes that are not done is kept, and a node waits to be done from the moment
this number is zero.  Then every node is done once, after all nodes with an edge to it.
-/

namespace CountedOrder

open Relation

variable {α : Type} [DecidableEq α] {R : α → α → Prop} [DecidableRel R]

/-- The number of edges into a node from nodes that are not done. -/
def openEdges (R : α → α → Prop) [DecidableRel R] (nodes done : List α) (node : α) : ℕ :=
  nodes.countP fun upper => upper ∉ done ∧ R upper node

theorem openEdges_eq_zero {nodes done : List α} {node : α} :
    openEdges R nodes done node = 0 ↔ ∀ upper ∈ nodes, R upper node → upper ∈ done := by
  simp only [openEdges, List.countP_eq_zero, decide_eq_true_eq, not_and]
  constructor
  · exact fun none upper mem edge => by_contra fun not_done => none upper mem not_done edge
  · exact fun all upper mem not_done edge => not_done (all upper mem edge)

/-- When one more node is done, the edges out of it are closed. -/
theorem openEdges_done {nodes done : List α} {next : α} (distinct : nodes.Nodup) (mem : next ∈ nodes)
    (not_done : next ∉ done) (node : α) :
    openEdges R nodes done node = openEdges R nodes (done ++ [next]) node + if R next node then 1 else 0 := by
  induction nodes with
  | nil => simp at mem
  | cons first nodes ih =>
    obtain ⟨apart, distinct⟩ := List.nodup_cons.mp distinct
    simp only [openEdges, List.countP_cons] at ih ⊢
    rcases List.mem_cons.mp mem with rfl | later
    · have same : nodes.countP (fun upper => decide (upper ∉ done ∧ R upper node)) =
          nodes.countP (fun upper => decide (upper ∉ done ++ [next] ∧ R upper node)) := by
        apply List.countP_congr
        intro upper mem
        have other : upper ≠ next := fun same => apart (same ▸ mem)
        simp [other]
      rw [same]
      simp [not_done]
    · have other : first ≠ next := fun same => apart (same ▸ later)
      rw [ih distinct later]
      simp only [List.mem_append, List.mem_singleton, other, or_false]
      omega

/-- Where a visit stands: the nodes done, in order, those that wait, and the counts. -/
structure Standing (R : α → α → Prop) [DecidableRel R] (nodes done waiting : List α) (count : α → ℕ) : Prop where
  nodes_distinct : nodes.Nodup
  distinct : (done ++ waiting).Nodup
  mem_iff : ∀ node, node ∈ done ++ waiting ↔ node ∈ nodes ∧ ∀ upper ∈ nodes, R upper node → upper ∈ done
  count_eq : ∀ node, count node = openEdges R nodes done node
  ordered : ∀ before node after, done = before ++ node :: after → ∀ upper ∈ nodes, R upper node → upper ∈ before

namespace Standing

variable {nodes done waiting : List α} {count : α → ℕ}

/-- At first the nodes without an edge into them wait. -/
theorem initial (distinct : nodes.Nodup) (waiting_distinct : waiting.Nodup)
    (count_eq : ∀ node, count node = openEdges R nodes [] node)
    (waiting_iff : ∀ node, node ∈ waiting ↔ node ∈ nodes ∧ count node = 0) :
    Standing R nodes [] waiting count where
  nodes_distinct := distinct
  distinct := waiting_distinct
  mem_iff node := by rw [List.nil_append, waiting_iff, count_eq, openEdges_eq_zero]
  count_eq := count_eq
  ordered before node after split := by simp at split

/-- A waiting node has all its upper nodes done, and is not done itself. -/
theorem waits (standing : Standing R nodes done waiting count) {node : α} (mem : node ∈ waiting) :
    node ∈ nodes ∧ node ∉ done ∧ ∀ upper ∈ nodes, R upper node → upper ∈ done := by
  obtain ⟨inside, all_done⟩ := (standing.mem_iff node).mp (List.mem_append_right _ mem)
  exact ⟨inside, fun twice => List.disjoint_of_nodup_append standing.distinct twice mem, all_done⟩

/-- No edge leads from a node that is not done to one that waits or is done. -/
theorem no_edge (standing : Standing R nodes done waiting count) {upper node : α} (inside : upper ∈ nodes)
    (not_done : upper ∉ done) (mem : node ∈ done ++ waiting) : ¬ R upper node :=
  fun edge => not_done (((standing.mem_iff node).mp mem).2 upper inside edge)

/-- A node is done: the nodes its edges lead to are counted down, and wait if none is left. -/
theorem step {next : α} (standing : Standing R nodes done (next :: waiting) count) {below : List α}
    (below_distinct : below.Nodup) (below_iff : ∀ node, node ∈ below ↔ R next node)
    (closed : ∀ node ∈ below, node ∈ nodes) {count' : α → ℕ}
    (count_eq : ∀ node, count' node = if node ∈ below then count node - 1 else count node) :
    Standing R nodes (done ++ [next]) (waiting ++ below.filter fun node => count' node = 0) count' := by
  obtain ⟨inside, not_done, uppers_done⟩ := standing.waits List.mem_cons_self
  have count'_eq : ∀ node, count' node = openEdges R nodes (done ++ [next]) node := by
    intro node
    have closes := openEdges_done (R := R) standing.nodes_distinct inside not_done node
    rw [← standing.count_eq] at closes
    simp only [count_eq, below_iff]
    split_ifs at closes ⊢ <;> omega
  have new_iff : ∀ node, node ∈ below.filter (fun node => count' node = 0) ↔
      R next node ∧ ∀ upper ∈ nodes, R upper node → upper ∈ done ++ [next] := by
    intro node
    simp only [List.mem_filter, below_iff, count'_eq, decide_eq_true_eq, openEdges_eq_zero]
  have old_distinct : (done ++ [next] ++ waiting).Nodup := by simpa using standing.distinct
  refine ⟨standing.nodes_distinct, ?_, ?_, count'_eq, ?_⟩
  · rw [← List.append_assoc]
    refine List.nodup_append.mpr ⟨old_distinct, below_distinct.filter _, ?_⟩
    rintro node old other new rfl
    have old : node ∈ done ++ next :: waiting := by simpa using old
    exact standing.no_edge inside not_done old ((new_iff node).mp new).1
  · intro node
    have old_iff := standing.mem_iff node
    rw [← List.append_assoc, List.mem_append, new_iff]
    constructor
    · rintro (old | ⟨edge, all_done⟩)
      · have old : node ∈ done ++ next :: waiting := by simpa using old
        obtain ⟨mem, all_done⟩ := old_iff.mp old
        exact ⟨mem, fun upper in_nodes edge => List.mem_append_left _ (all_done upper in_nodes edge)⟩
      · exact ⟨closed node ((below_iff node).mpr edge), all_done⟩
    · rintro ⟨mem, all_done⟩
      by_cases edge : R next node
      · exact .inr ⟨edge, all_done⟩
      · have before : ∀ upper ∈ nodes, R upper node → upper ∈ done := by
          intro upper in_nodes into
          rcases List.mem_append.mp (all_done upper in_nodes into) with old | last
          · exact old
          · rw [List.mem_singleton] at last
            exact absurd (last ▸ into) edge
        have old := old_iff.mpr ⟨mem, before⟩
        exact .inl (by simpa using old)
  · intro before node after split upper in_nodes edge
    rcases List.append_eq_append_iff.mp split with ⟨rest, before_eq, last⟩ | ⟨rest, done_eq, last⟩
    · obtain ⟨rfl, rfl, rfl⟩ : rest = [] ∧ node = next ∧ after = [] := by
        cases rest with
        | nil => simpa [eq_comm] using last
        | cons first rest => simp at last
      rw [before_eq, List.append_nil]
      exact uppers_done upper in_nodes edge
    · cases rest with
      | nil =>
        obtain ⟨rfl, rfl⟩ : node = next ∧ after = [] := by simpa using last
        rw [List.append_nil] at done_eq
        exact done_eq ▸ uppers_done upper in_nodes edge
      | cons first rest =>
        obtain ⟨rfl, -⟩ := List.cons.inj last
        exact standing.ordered before node rest done_eq upper in_nodes edge

/-- If no node waits, all are done. -/
theorem finished (standing : Standing R nodes done [] count)
    (acyclic : ∀ node ∈ nodes, ¬ TransGen R node node) {node : α} (mem : node ∈ nodes) :
    node ∈ done := by
  by_contra left
  let s : Set α := {node | node ∈ nodes ∧ node ∉ done}
  have finite : s.Finite := nodes.finite_toSet.subset fun _ mem => mem.1
  obtain ⟨first, ⟨in_nodes, not_done⟩, none_before⟩ :=
    Acyclic.exists_first (s := s) (fun a mem => acyclic a mem.1) finite ⟨node, mem, left⟩
  have waits := (standing.mem_iff first).mpr ⟨in_nodes, fun upper mem edge =>
    by_contra fun open_edge => none_before upper ⟨mem, open_edge⟩ edge⟩
  rw [List.append_nil] at waits
  exact not_done waits

/-- At most all nodes are done. -/
theorem length_le (standing : Standing R nodes done waiting count) :
    done.length + waiting.length ≤ nodes.length := by
  have sub : done ++ waiting ⊆ nodes := fun node mem => ((standing.mem_iff node).mp mem).1
  simpa using (standing.distinct.subperm sub).length_le

end Standing

end CountedOrder
