import AvalancheParallel.Consensus.CompletedSweeps
import AvalancheParallel.Consensus.RegistrationLaws
import AvalancheParallel.Foundation.DependencyOrder

/-!
# The decision loop does not end

`DecideTxs` repeats its body while the frontier is nonempty and recomputes the
frontier after each sweep. The frontier depends on the vertices and the recorded
parents only, and a sweep changes neither. A finite acyclic set of vertices has
a vertex without children, so once a vertex has been processed every sweep is
followed by another one and the engine lock is never released.
-/

namespace AvalancheParallel.Consensus

open AvalancheParallel.RangeLoop AvalancheParallel.FiniteDag

variable {ID : Type} [DecidableEq ID]

/-- The list computed by `getFrontier` is empty exactly when the frontier is. -/
theorem getFrontier_eq_nil (order : IterationOrder ID) (e : ParallelEngine ID) :
    e.getFrontier order = [] ↔ e.frontier = ∅ := by
  rw [List.eq_nil_iff_forall_not_mem, Finset.eq_empty_iff_forall_notMem]
  simp only [mem_getFrontier]

/-- The frontier is listed as it is. -/
theorem getFrontier_ne_nil (order : IterationOrder ID) (e : ParallelEngine ID)
    (nonempty : e.frontier.Nonempty) : e.getFrontier order ≠ [] := by
  intro empty
  exact nonempty.ne_empty ((getFrontier_eq_nil order e).mp empty)

/-- From a nonempty frontier, any number of sweeps without errors leaves the loop running. -/
theorem decideTxs_runs_on (replies : ℕ → SweepReplies ID)
    (succeeds : ∀ index, (replies index).Succeeds) (fuel index : ℕ) (e : ParallelEngine ID)
    (nonempty : e.frontier.Nonempty) : decideTxs replies fuel index e = none := by
  induction fuel generalizing index e with
  | zero =>
    have busy := getFrontier_ne_nil (replies index).order e nonempty
    simp [decideTxs, busy]
  | succ fuel inductionHypothesis =>
    have busy := getFrontier_ne_nil (replies index).order e nonempty
    have completed := sweep_completes (replies index) (succeeds index) e
    have same := (sweep_progress (replies index) e).registry
    cases outcome : sweep (replies index) e with
    | mk next failed =>
      rw [outcome] at completed same
      subst completed
      have stillNonempty : next.frontier.Nonempty := by
        unfold ParallelEngine.frontier at nonempty ⊢
        rw [same.vertices, same.isParent]
        exact nonempty
      simp only [decideTxs, busy, if_false, outcome]
      exact inductionHypothesis (index + 1) next stillNonempty

/-- The loop exits after finitely many sweeps. -/
def Terminates (replies : ℕ → SweepReplies ID) (e : ParallelEngine ID) : Prop :=
  ∃ fuel outcome, decideTxs replies fuel 0 e = some outcome

/-- The parent relation of a list of vertices, by ID. -/
def ParentEdge (vertices : List (Vertex ID)) (parent child : ID) : Prop :=
  ∃ vertex ∈ vertices, vertex.id = child ∧ parent ∈ vertex.parentIDs

/-- The state after processing vertices in order, with arbitrary replies. -/
abbrev processAll (arrivals : List (Vertex ID × ProcessReplies)) : ParallelEngine ID :=
  runEngine (arrivals.map (fun arrival => .processVertex arrival.1 arrival.2))

/-- Only vertices that arrived are stored. -/
theorem processAll_stored (arrivals : List (Vertex ID × ProcessReplies)) (vertexID : ID)
    (vertex : Vertex ID) (found : (processAll arrivals).vertices.lookup vertexID = some vertex) :
    vertex ∈ arrivals.map Prod.fst := by
  induction arrivals using List.reverseRecOn generalizing vertexID vertex with
  | nil => simp [processAll, newParallelEngine] at found
  | append_singleton earlier arrival inductionHypothesis =>
    simp only [processAll, List.map_append, List.map_singleton, Runs.run_append, Runs.run_cons,
      Runs.run_nil, step] at found
    rw [List.map_append, List.mem_append]
    by_cases known : arrival.1.id ∈ (processAll earlier).vertices
    · rw [processVertex_known arrival.2 arrival.1 _ known] at found
      exact Or.inl (inductionHypothesis vertexID vertex found)
    · rw [(processVertex_new arrival.2 arrival.1 _ known).vertices] at found
      obtain ⟨rfl, rfl⟩ | ⟨_, stored⟩ := lookup_insert_cases found
      · exact Or.inr (by simp)
      · exact Or.inl (inductionHypothesis vertexID vertex stored)

/-- Something is stored as soon as something has arrived. -/
theorem processAll_nonempty (arrivals : List (Vertex ID × ProcessReplies))
    (arrived : arrivals ≠ []) : (processAll arrivals).vertices.keys.Nonempty := by
  obtain ⟨earlier, arrival, rfl⟩ := List.eq_nil_or_concat arrivals |>.resolve_left arrived
  simp only [processAll, List.concat_eq_append, List.map_append, List.map_singleton,
    Runs.run_append, Runs.run_cons, Runs.run_nil, step]
  refine ⟨arrival.1.id, Finmap.mem_keys.mpr ?_⟩
  by_cases known : arrival.1.id ∈ (processAll earlier).vertices
  · rw [processVertex_known arrival.2 arrival.1 _ known]
    exact known
  · rw [(processVertex_new arrival.2 arrival.1 _ known).vertices]
    exact Finmap.mem_insert.mpr (Or.inl rfl)

/-- A finite acyclic set of processed vertices has a vertex without children. -/
theorem frontier_nonempty (arrivals : List (Vertex ID × ProcessReplies))
    (acyclic : Acyclic (ParentEdge (arrivals.map Prod.fst))) (arrived : arrivals ≠ []) :
    (processAll arrivals).frontier.Nonempty := by
  obtain ⟨sink, stored, childless⟩ :=
    acyclic.exists_sink (processAll arrivals).vertices.keys (processAll_nonempty arrivals arrived)
  refine ⟨sink, Finset.mem_filter.mpr ⟨stored, ?_⟩⟩
  intro parent
  obtain ⟨child, recorded, isListed⟩ := Finset.mem_biUnion.mp parent
  obtain ⟨parentIDs, found⟩ := Finmap.mem_iff.mp (Finmap.mem_keys.mp recorded)
  have wellformed : Wellformed (processAll arrivals) := reachable_wellformed _
  obtain ⟨vertex, here, same⟩ := wellformed.edges child parentIDs found
  have isParent : sink ∈ vertex.parentIDs := by
    rw [same]
    simpa [ParallelEngine.recordedParents, found] using isListed
  exact childless child (Finmap.mem_keys.mpr (Finmap.mem_of_lookup_eq_some here))
    ⟨vertex, processAll_stored arrivals child vertex here, wellformed.keys child vertex here,
      isParent⟩

/-- For every finite acyclic set of vertices processed in any order, with no error in
the sweeps, the loop exits exactly when no vertex has been processed. -/
theorem decideTxs_terminates_iff (arrivals : List (Vertex ID × ProcessReplies))
    (acyclic : Acyclic (ParentEdge (arrivals.map Prod.fst))) (replies : ℕ → SweepReplies ID)
    (succeeds : ∀ index, (replies index).Succeeds) :
    Terminates replies (processAll arrivals) ↔ arrivals = [] := by
  constructor
  · rintro ⟨fuel, outcome, exited⟩
    by_contra arrived
    rw [decideTxs_runs_on replies succeeds fuel 0 _ (frontier_nonempty arrivals acyclic arrived)]
      at exited
    simp at exited
  · rintro rfl
    refine ⟨0, (newParallelEngine, none), ?_⟩
    have idle : (newParallelEngine : ParallelEngine ID).getFrontier (replies 0).order = [] :=
      (getFrontier_eq_nil _ _).mpr rfl
    simp [processAll, decideTxs, idle]

/-- One vertex without parents, holding one transaction. -/
def loneVertex : List (Vertex ℕ × ProcessReplies) := [(⟨1, [], [⟨11, [9]⟩], 0⟩, .succeed)]

/-- A vertex without parents is on no cycle. -/
theorem loneVertex_acyclic : Acyclic (ParentEdge (loneVertex.map Prod.fst)) := by
  intro vertexID cycle
  obtain ⟨_, ⟨vertex, member, _, isParent⟩, _⟩ := Relation.TransGen.head'_iff.mp cycle
  have same : vertex = ⟨1, [], [⟨11, [9]⟩], 0⟩ := by simpa [loneVertex] using member
  simp [same] at isParent

/-- The loop keeps running on a single accepted vertex. -/
theorem lone_vertex_loops :
    Acyclic (ParentEdge (loneVertex.map Prod.fst)) ∧
      ¬ Terminates (fun _ => SweepReplies.succeed .increasing) (processAll loneVertex) := by
  refine ⟨loneVertex_acyclic, ?_⟩
  rintro ⟨fuel, outcome, exited⟩
  have busy : (processAll loneVertex).frontier.Nonempty := ⟨1, by decide⟩
  rw [decideTxs_runs_on _ (fun _ => SweepReplies.succeed_succeeds .increasing) fuel 0 _ busy]
    at exited
  simp at exited

/-- The characterisation at an engine without vertices, where the loop exits, and at one
vertex, where it does not. -/
theorem empty_engine_exits :
    Terminates (fun _ => SweepReplies.succeed .increasing) (processAll ([] : List (Vertex ℕ × _))) ∧
      (Terminates (fun _ => SweepReplies.succeed .increasing) (processAll loneVertex) ↔
        loneVertex = []) := by
  refine ⟨(decideTxs_terminates_iff [] ?_ _ ?_).mpr rfl,
    decideTxs_terminates_iff loneVertex loneVertex_acyclic _ ?_⟩
  · intro vertexID cycle
    obtain ⟨_, ⟨vertex, member, _⟩, _⟩ := Relation.TransGen.head'_iff.mp cycle
    simp at member
  · exact fun _ => SweepReplies.succeed_succeeds .increasing
  · exact fun _ => SweepReplies.succeed_succeeds .increasing

end AvalancheParallel.Consensus
