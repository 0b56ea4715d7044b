import AvalancheParallel.Consensus.ParallelDag

/-!
# Adding vertices whose parents are not always available

`AddVertex` of `pkg/consensus/dag.go` stores the vertex before it asks for the parents.
When `Parents` fails the vertex stays behind without edges, and every later attempt
finds it in the map and returns at once. A sequence of attempts therefore ends as if
only the attempts with parents had been made exactly when the first attempt for each
vertex has parents.
-/

namespace AvalancheParallel.Consensus

open AvalancheParallel.RangeLoop

variable {V ID : Type} [DecidableEq ID]

namespace ParallelDAG

/-- The DAG after `AddVertex` calls, each with what `Parents` answers on this attempt. -/
abbrev attempt (idOf : V → ID) (dag : ParallelDAG V ID)
    (attempts : List (V × Option (List ID))) : ParallelDAG V ID :=
  Runs.run (fun dag entry => (addVertex idOf entry.1 entry.2 dag).1) dag attempts

/-- The attempts on which `Parents` succeeds. -/
def successful (attempts : List (V × Option (List ID))) : List (V × Option (List ID)) :=
  attempts.filter (fun entry => entry.2.isSome)

/-- The attempts end in the DAG of the successful ones: every vertex of the map has its edges, and
each vertex that was attempted with parents is in the map. -/
structure AllOrNothing (idOf : V → ID) (attempts : List (V × Option (List ID))) : Prop where
  same : attempt idOf newParallelDAG attempts =
    attempt idOf newParallelDAG (successful attempts)
  recorded : ∀ id ∈ (attempt idOf newParallelDAG attempts).vertices,
    id ∈ (attempt idOf newParallelDAG attempts).edges
  added : ∀ entry ∈ successful attempts,
    idOf entry.1 ∈ (attempt idOf newParallelDAG attempts).vertices ∧
      idOf entry.1 ∈ (attempt idOf newParallelDAG attempts).edges

/-- `Parents` fails only on vertices whose ID has been attempted before. -/
def FailsOnlyLater (idOf : V → ID) (attempts : List (V × Option (List ID))) : Prop :=
  ∀ front vertex rest, attempts = front ++ (vertex, none) :: rest →
    ∃ earlier ∈ front, idOf earlier.1 = idOf vertex

/-- A vertex that is in the map is not added again. -/
theorem addVertex_known (idOf : V → ID) (vertex : V) (parents : Option (List ID))
    {dag : ParallelDAG V ID} (known : idOf vertex ∈ dag.vertices) :
    (addVertex idOf vertex parents dag).1 = dag := by
  simp only [addVertex, known, if_true]

/-- Whatever `Parents` answers, the vertex is in the map afterwards. -/
theorem mem_addVertex_vertices (idOf : V → ID) (vertex : V) (parents : Option (List ID))
    (dag : ParallelDAG V ID) (id : ID) :
    id ∈ (addVertex idOf vertex parents dag).1.vertices ↔
      id = idOf vertex ∨ id ∈ dag.vertices := by
  by_cases known : idOf vertex ∈ dag.vertices
  · rw [addVertex_known idOf vertex parents known]
    constructor
    · exact Or.inr
    · rintro (rfl | before)
      · exact known
      · exact before
  · cases parents with
    | none => simp only [addVertex, known, if_false, Finmap.mem_insert]
    | some parentIDs =>
      simp only [addVertex, known, if_false]
      rw [(linkVertex_linked _ _ _).vertices, Finmap.mem_insert]

/-- Edges are recorded for a new vertex with parents, and for no other. -/
theorem mem_addVertex_edges (idOf : V → ID) (vertex : V) (parents : Option (List ID))
    (dag : ParallelDAG V ID) (id : ID) :
    id ∈ (addVertex idOf vertex parents dag).1.edges ↔
      id ∈ dag.edges ∨ id = idOf vertex ∧ id ∉ dag.vertices ∧ parents.isSome := by
  by_cases known : idOf vertex ∈ dag.vertices
  · rw [addVertex_known idOf vertex parents known]
    constructor
    · exact Or.inl
    · rintro (before | ⟨rfl, new, _⟩)
      · exact before
      · exact absurd known new
  · cases parents with
    | none => simp [addVertex, known]
    | some parentIDs =>
      simp only [addVertex, known, if_false]
      rw [(linkVertex_linked _ _ _).edges, Finmap.mem_insert]
      constructor
      · rintro (rfl | before)
        · exact Or.inr ⟨rfl, known, rfl⟩
        · exact Or.inl before
      · rintro (before | ⟨rfl, _, _⟩)
        · exact Or.inr before
        · exact Or.inl rfl

/-- The map holds exactly the attempted vertices, whether or not their parents were available. -/
theorem mem_attempt_vertices (idOf : V → ID) (attempts : List (V × Option (List ID))) (id : ID) :
    id ∈ (attempt idOf newParallelDAG attempts).vertices ↔
      ∃ entry ∈ attempts, idOf entry.1 = id := by
  induction attempts using List.reverseRecOn with
  | nil => simp [attempt, newParallelDAG, Finmap.notMem_empty]
  | append_singleton front last inductionHypothesis =>
    rw [attempt, Runs.run_append, Runs.run_cons, Runs.run_nil, mem_addVertex_vertices,
      inductionHypothesis]
    simp only [List.mem_append, List.mem_singleton, or_and_right, exists_or, exists_eq_left]
    rw [or_comm, eq_comm]

/-- Edges are recorded for vertices of the map only. -/
theorem attempt_edges_subset (idOf : V → ID) (attempts : List (V × Option (List ID))) :
    ∀ id ∈ (attempt idOf newParallelDAG attempts).edges,
      id ∈ (attempt idOf newParallelDAG attempts).vertices := by
  apply Runs.run_invariant _ (fun dag : ParallelDAG V ID => ∀ id ∈ dag.edges, id ∈ dag.vertices)
  · intro dag entry before id linked
    rw [mem_addVertex_vertices]
    rcases (mem_addVertex_edges _ _ _ _ _).mp linked with already | ⟨own, _, _⟩
    · exact Or.inr (before id already)
    · exact Or.inl own
  · intro id linked
    exact absurd linked Finmap.notMem_empty

/-- A vertex left behind without edges stays so, whatever is attempted afterwards. -/
theorem unlinked_remains (idOf : V → ID) (id : ID) (dag : ParallelDAG V ID)
    (attempts : List (V × Option (List ID)))
    (unlinked : id ∈ dag.vertices ∧ id ∉ dag.edges) :
    id ∈ (attempt idOf dag attempts).vertices ∧ id ∉ (attempt idOf dag attempts).edges := by
  apply Runs.run_invariant _ (fun dag : ParallelDAG V ID => id ∈ dag.vertices ∧ id ∉ dag.edges)
  · rintro dag entry ⟨known, unlinked⟩
    rw [mem_addVertex_vertices, mem_addVertex_edges]
    refine ⟨Or.inr known, ?_⟩
    rintro (linked | ⟨_, new, _⟩)
    · exact unlinked linked
    · exact new known
  · exact unlinked

/-- The first attempt for a vertex leaves it without edges for good when `Parents` fails. -/
theorem failed_first_attempt (idOf : V → ID) (front : List (V × Option (List ID))) (vertex : V)
    (rest : List (V × Option (List ID)))
    (first : ∀ earlier ∈ front, idOf earlier.1 ≠ idOf vertex) :
    let dag := attempt idOf newParallelDAG (front ++ (vertex, none) :: rest)
    idOf vertex ∈ dag.vertices ∧ idOf vertex ∉ dag.edges := by
  have unknown : idOf vertex ∉ (attempt idOf newParallelDAG front).vertices := by
    rw [mem_attempt_vertices]
    rintro ⟨earlier, member, same⟩
    exact first earlier member same
  have unlinked : idOf vertex ∉ (attempt idOf newParallelDAG front).edges :=
    mt (attempt_edges_subset idOf front _) unknown
  intro dag
  have split : dag = attempt idOf
      (addVertex idOf vertex none (attempt idOf newParallelDAG front)).1 rest := by
    simp only [dag, attempt, Runs.run_append, Runs.run_cons]
  rw [split]
  apply unlinked_remains
  rw [mem_addVertex_vertices, mem_addVertex_edges]
  simp [unlinked]

omit [DecidableEq ID] in
/-- The condition on the attempts holds for the earlier ones. -/
theorem FailsOnlyLater.front {idOf : V → ID} {front : List (V × Option (List ID))}
    {last : V × Option (List ID)} (later : FailsOnlyLater idOf (front ++ [last])) :
    FailsOnlyLater idOf front := by
  rintro before vertex rest rfl
  exact later before vertex (rest ++ [last]) (by simp)

/-- A failing attempt for a vertex of the map changes nothing. -/
theorem attempt_eq_successful {idOf : V → ID} {attempts : List (V × Option (List ID))}
    (later : FailsOnlyLater idOf attempts) :
    attempt idOf newParallelDAG attempts = attempt idOf newParallelDAG (successful attempts) := by
  induction attempts using List.reverseRecOn with
  | nil => rfl
  | append_singleton front last inductionHypothesis =>
    obtain ⟨vertex, parents⟩ := last
    have before := inductionHypothesis later.front
    rw [successful, List.filter_append, ← successful, attempt, attempt, Runs.run_append,
      Runs.run_append, ← attempt, ← attempt, before]
    cases parents with
    | none =>
      have known : idOf vertex ∈ (attempt idOf newParallelDAG (successful front)).vertices := by
        rw [← before, mem_attempt_vertices]
        exact later front vertex [] rfl
      exact addVertex_known idOf vertex none known
    | some parentIDs => rfl

/-- The successful attempts are `AddVertex` calls with parents, and these keep the maps
together. -/
theorem attempt_successful_represents (idOf : V → ID) (attempts : List (V × Option (List ID))) :
    (attempt idOf newParallelDAG (successful attempts)).Represents := by
  have along : Runs.Along (fun dag entry => (addVertex idOf entry.1 entry.2 dag).1)
      (fun _ entry => entry.2.isSome = true) newParallelDAG (successful attempts) := by
    apply Runs.Along.of_forall
    intro entry member
    exact (List.mem_filter.mp member).2
  apply along.invariant _ Represents _ newParallelDAG_represents
  rintro dag ⟨vertex, parents⟩ available before
  obtain ⟨parentIDs, rfl⟩ := Option.isSome_iff_exists.mp available
  exact addVertex_represents idOf vertex parentIDs before

/-- A sequence of attempts ends as the successful ones alone do, with the edges of every vertex,
exactly when no vertex is attempted for the first time without parents. -/
theorem attempts_all_or_nothing_iff (idOf : V → ID) (attempts : List (V × Option (List ID))) :
    AllOrNothing idOf attempts ↔ FailsOnlyLater idOf attempts := by
  constructor
  · rintro ⟨_, recorded, _⟩ front vertex rest rfl
    by_contra missing
    push Not at missing
    have left := failed_first_attempt idOf front vertex rest missing
    exact left.2 (recorded _ left.1)
  · intro later
    have same := attempt_eq_successful later
    have recorded : ∀ id ∈ (attempt idOf newParallelDAG attempts).vertices,
        id ∈ (attempt idOf newParallelDAG attempts).edges := by
      intro id known
      rw [same] at known ⊢
      exact ((attempt_successful_represents idOf attempts).keys id).mpr known
    refine ⟨same, recorded, ?_⟩
    intro entry member
    have known : idOf entry.1 ∈ (attempt idOf newParallelDAG attempts).vertices := by
      rw [mem_attempt_vertices]
      exact ⟨entry, (List.mem_filter.mp member).1, rfl⟩
    exact ⟨known, recorded _ known⟩

/-- `Parents` of a vertex fails once and answers on the second attempt: the vertex stays without
its edge. -/
theorem retried_vertex_not_added :
    ¬ AllOrNothing (fun vertex : ℕ => vertex) [(1, none), (1, some [0])] := by
  intro whole
  have recorded := whole.recorded 1 (by decide +kernel)
  revert recorded
  decide +kernel

end ParallelDAG

end AvalancheParallel.Consensus
