import AvalancheParallel.Consensus.ParentOrder

/-!
# Vertices that fail verification

`ProcessVertex` stores a vertex before it verifies it and leaves it in the
vertices map when verification fails. The decision loop reads the map without
looking at statuses, so a failed vertex without children is in the frontier:
its unregistered transactions are accepted, and then the vertex itself.
-/

namespace AvalancheParallel.Consensus

open AvalancheParallel.RangeLoop AvalancheParallel.Choices

variable {ID : Type} [DecidableEq ID]

/-- No stored vertex other than this one holds a transaction with the ID. -/
def OnlyIn (e : ParallelEngine ID) (vertexID txID : ID) : Prop :=
  ∀ other vertex, e.vertices.lookup other = some vertex → other ≠ vertexID →
    ∀ tx ∈ vertex.txs, tx.id ≠ txID

/-- The vertex is not accepted, and neither is a transaction that occurs only in it. -/
def StaysOut (vertex : Vertex ID) (e : ParallelEngine ID) : Prop :=
  vertexStatus vertex.id e.calls ≠ .accepted ∧
    ∀ tx ∈ vertex.txs, OnlyIn e vertex.id tx.id → tx.id ∉ e.txsAccepted

/-- If the vertex is in the frontier of a sweep, then one of its transactions is
neither decided nor acceptable, and none that occurs only in it passes the accept test. -/
def KeptOut (vertex : Vertex ID) (e : ParallelEngine ID) : Action ID → Prop
  | .processVertex _ _ => True
  | .sweep _ => vertex.id ∈ e.frontier → ¬ MayDecide (SweepGrant e) e vertex ∧
      ∀ tx ∈ vertex.txs, OnlyIn e vertex.id tx.id → ¬ Clear e tx

/-- Only a successful `Accept` call makes the status accepted. -/
theorem vertexStatus_accepted (vertexID : ID) (calls : List (Call ID))
    (accepted : vertexStatus vertexID calls = .accepted) : .acceptVertex vertexID true ∈ calls := by
  induction calls with
  | nil => simp [vertexStatus] at accepted
  | cons call rest inductionHypothesis =>
    have recent : call = .acceptVertex vertexID true ∨ vertexStatus vertexID rest = .accepted := by
      rcases call with ⟨tx, reply⟩ | ⟨tx, reply⟩ | ⟨other, _ | _⟩ | ⟨other, _ | _⟩ <;>
        simp only [vertexStatus] at accepted
      all_goals try exact Or.inr accepted
      all_goals
        split at accepted
        · simp_all
        · exact Or.inr accepted
    rcases recent with rfl | earlier
    · exact List.mem_cons_self
    · exact List.mem_cons_of_mem call (inductionHypothesis earlier)

/-- A successful `Accept` call that no `Reject` call follows makes the status accepted. -/
theorem vertexStatus_of_call (vertexID : ID) (made calls : List (Call ID))
    (called : .acceptVertex vertexID true ∈ made)
    (unrejected : ∀ other reply, .rejectVertex other reply ∉ made) :
    vertexStatus vertexID (made ++ calls) = .accepted := by
  induction made with
  | nil => simp at called
  | cons call rest inductionHypothesis =>
    have restUnrejected : ∀ other reply, .rejectVertex other reply ∉ rest :=
      fun other reply member => unrejected other reply (List.mem_cons_of_mem call member)
    rcases List.mem_cons.mp called with rfl | later
    · simp [vertexStatus]
    · have settled := inductionHypothesis later restUnrejected
      rcases call with ⟨tx, reply⟩ | ⟨tx, reply⟩ | ⟨other, _ | _⟩ | ⟨other, reply⟩
      · exact settled
      · exact settled
      · exact settled
      · simp only [List.cons_append, vertexStatus, settled, ite_self]
      · exact absurd List.mem_cons_self (unrejected other reply)

/-- What holds of a vertex that has been kept out so far. -/
structure Outside (vertex : Vertex ID) (e : ParallelEngine ID) : Prop where
  wellformed : Wellformed e
  stored : e.vertices.lookup vertex.id = some vertex
  uncalled : ∀ reply, .acceptVertex vertex.id reply ∉ e.calls
  txs : ∀ tx ∈ vertex.txs, OnlyIn e vertex.id tx.id → tx.id ∉ e.txsAccepted

/-- A vertex outside is not accepted, and neither is a transaction that occurs only in it. -/
theorem Outside.staysOut {vertex : Vertex ID} {e : ParallelEngine ID} (outside : Outside vertex e) :
    StaysOut vertex e :=
  ⟨fun accepted => outside.uncalled true (vertexStatus_accepted vertex.id e.calls accepted),
    outside.txs⟩

/-- A transaction that occurs in one vertex only after a step did so before it. -/
theorem OnlyIn.before {e : ParallelEngine ID} {action : Action ID} {vertexID txID : ID}
    (only : OnlyIn (step e action) vertexID txID) : OnlyIn e vertexID txID :=
  fun other vertex found => only other vertex (step_lookup e action other vertex found)

/-- Storing the vertex leaves it outside. -/
theorem processVertex_outside (replies : ProcessReplies) (vertex : Vertex ID)
    (e : ParallelEngine ID) (wellformed : Wellformed e) (fresh : vertex.id ∉ e.vertices) :
    Outside vertex (processVertex replies vertex e).1 := by
  have new := processVertex_new replies vertex e fresh
  refine ⟨processVertex_wellformed replies vertex e fresh wellformed,
    by rw [new.vertices, Finmap.lookup_insert], ?_, ?_⟩
  · intro reply member
    exact fresh (wellformed.acceptCalls vertex.id reply (new.acceptVertex_mem member))
  · intro tx _ only accepted
    rw [new.txsAccepted] at accepted
    obtain ⟨twin, ⟨other, holder, found, inside⟩, same⟩ := wellformed.accepted tx.id accepted
    have different : other ≠ vertex.id := by
      rintro rfl
      exact fresh (Finmap.mem_of_lookup_eq_some found)
    exact only other holder (processVertex_lookup replies vertex e other holder found) different
      twin inside same

/-- A guarded step keeps the vertex outside. -/
theorem step_outside (vertex : Vertex ID) (e : ParallelEngine ID) (action : Action ID)
    (keptOut : KeptOut vertex e action) (outside : Outside vertex e) :
    Outside vertex (step e action) := by
  refine ⟨step_wellformed e action outside.wellformed,
    step_lookup e action vertex.id vertex outside.stored, ?_, ?_⟩
  · intro reply member
    cases action with
    | processVertex arriving replies =>
      by_cases known : arriving.id ∈ e.vertices
      · simp only [step, processVertex_known replies arriving e known] at member
        exact outside.uncalled reply member
      · exact outside.uncalled reply
          ((processVertex_new replies arriving e known).acceptVertex_mem member)
    | sweep replies =>
      obtain ⟨made, appended, admitted⟩ := (sweep_progress replies e).calls
      simp only [step, appended, List.mem_append] at member
      rcases member with inSweep | before
      · obtain ⟨inFrontier, visited, found, mayDecide⟩ :=
          sweep_acceptVertex outside.wellformed (admitted _ inSweep)
        rw [outside.stored] at found
        rw [← Option.some.inj found] at mayDecide
        exact (keptOut inFrontier).1 mayDecide
      · exact outside.uncalled reply before
  · intro tx member only accepted
    cases action with
    | processVertex arriving replies =>
      have same : (step e (.processVertex arriving replies)).txsAccepted = e.txsAccepted := by
        by_cases known : arriving.id ∈ e.vertices
        · simp only [step, processVertex_known replies arriving e known]
        · exact (processVertex_new replies arriving e known).txsAccepted
      exact outside.txs tx member only.before (same ▸ accepted)
    | sweep replies =>
      rcases (sweep_progress replies e).granted tx.id accepted with
        already | ⟨visited, inFrontier, holder, found, twin, inside, same, clear⟩
      · exact outside.txs tx member only.before already
      · have here : visited = vertex.id := by
          by_contra different
          exact only.before visited holder found different twin inside same
        subst here
        rw [outside.stored] at found
        rw [← Option.some.inj found] at inside
        exact (keptOut inFrontier).2 twin inside (same ▸ only.before) clear

/-- A sweep without errors that leaves the vertex out was guarded. -/
theorem keptOut_of_staysOut {inputIDs : ID → List ID} {vertex : Vertex ID} {e : ParallelEngine ID}
    (wellformed : Wellformed e) (allGenuine : AllGenuine inputIDs e)
    (stored : e.vertices.lookup vertex.id = some vertex) (action : Action ID)
    (succeeds : action.Succeeds) (staysOut : StaysOut vertex (step e action)) :
    KeptOut vertex e action := by
  cases action with
  | processVertex arriving replies => trivial
  | sweep replies =>
    intro inFrontier
    obtain ⟨unaccepted, txsOut⟩ := staysOut
    constructor
    · intro mayDecide
      obtain ⟨made, appended, member⟩ := sweep_calls replies succeeds e vertex.id inFrontier vertex
        stored (mayDecide.acceptable wellformed allGenuine stored)
      apply unaccepted
      change vertexStatus vertex.id (sweep replies e).1.calls = .accepted
      rw [appended]
      refine vertexStatus_of_call vertex.id made e.calls member ?_
      intro other reply rejected
      obtain ⟨later, between, rfl⟩ := List.append_of_mem rejected
      have impossible : SweepCall e (.rejectVertex other reply) :=
        sweep_call replies e _ later (between ++ e.calls) (by rw [appended]; simp)
          (List.suffix_append between e.calls)
      rcases impossible with isTx | ⟨_, _, _, _, _, same, _⟩
      · exact isTx.elim
      · cases same
    · intro tx member only clear
      have sameVertices := (sweep_progress replies e).registry.vertices
      refine txsOut tx member ?_ (sweep_accepts replies e (sweep_completes replies succeeds e)
        vertex.id inFrontier vertex stored tx member clear (by simp [wellformed.rejected]))
      intro other holder found
      change (sweep replies e).1.vertices.lookup other = some holder at found
      rw [sameVertices] at found
      exact only other holder found

/-- The state in which a run processes one more vertex. -/
abbrev processedAfter (before : List (Action ID)) (vertex : Vertex ID) (replies : ProcessReplies) :
    ParallelEngine ID :=
  runEngine (before ++ [.processVertex vertex replies])

/-- A vertex that failed verification is rejected by `ProcessVertex`, and it stays out
of every later state as long as the sweeps meet `KeptOut`. When IDs are genuine and no
call fails, these are the only such runs. -/
theorem failed_vertex_stays_out (inputIDs : ID → List ID) (before after : List (Action ID))
    (vertex : Vertex ID) (replies : ProcessReplies)
    (fresh : vertex.id ∉ (runEngine before).vertices) (linked : replies.parents = true)
    (failed : replies.verify = false) :
    .rejectVertex vertex.id replies.reject ∈ (processedAfter before vertex replies).calls ∧
    (Runs.Along step (KeptOut vertex) (processedAfter before vertex replies) after →
      Runs.Always step (StaysOut vertex) (processedAfter before vertex replies) after) ∧
    ((∀ action ∈ before ++ [.processVertex vertex replies] ++ after,
        action.Genuine inputIDs ∧ action.Succeeds) →
      Runs.Always step (StaysOut vertex) (processedAfter before vertex replies) after →
        Runs.Along step (KeptOut vertex) (processedAfter before vertex replies) after) := by
  have reached : processedAfter before vertex replies =
      (processVertex replies vertex (runEngine before)).1 := by
    simp only [processedAfter, Runs.run_append, Runs.run_cons, Runs.run_nil, step]
  have outside : Outside vertex (processedAfter before vertex replies) := by
    rw [reached]
    exact processVertex_outside replies vertex _ (reachable_wellformed before) fresh
  refine ⟨?_, ?_, ?_⟩
  · rw [reached]
    simp [processVertex, fresh, linked, failed, ParallelEngine.record]
  · intro keptOut
    exact (keptOut.always step (Outside vertex) (step_outside vertex) outside).imp step
      (fun _ => Outside.staysOut)
  · intro conditions staysOut
    have genuineUntil : AllGenuine inputIDs (processedAfter before vertex replies) :=
      Runs.Along.invariant step (AllGenuine inputIDs)
        (fun state action genuine => step_genuine inputIDs state action genuine)
        (Runs.Along.of_forall step _ (fun action member =>
          (conditions action (List.mem_append_left after member)).1))
        (newParallelEngine_genuine inputIDs)
    have laterConditions : ∀ action ∈ after, action.Genuine inputIDs ∧ action.Succeeds :=
      fun action member => conditions action (List.mem_append_right _ member)
    refine (staysOut.along.and step (Runs.Along.of_forall step _ laterConditions)).imp_of_invariant
      step (fun state => Wellformed state ∧ AllGenuine inputIDs state ∧
        state.vertices.lookup vertex.id = some vertex) ?_ ?_
      ⟨outside.wellformed, genuineUntil, outside.stored⟩
    · rintro state action ⟨_, genuine, _⟩ ⟨wellformed, allGenuine, stored⟩
      exact ⟨step_wellformed state action wellformed,
        step_genuine inputIDs state action genuine allGenuine,
        step_lookup state action vertex.id vertex stored⟩
    · rintro state action ⟨wellformed, allGenuine, stored⟩ ⟨out, _, succeeds⟩
      exact keptOut_of_staysOut wellformed allGenuine stored action succeeds out

/-- A vertex with one transaction, and the replies of a `ProcessVertex` call in which
its verification fails. -/
def unsoundVertex : Vertex ℕ := ⟨1, [], [⟨11, [9]⟩], 0⟩

def failVerify : ProcessReplies := { ProcessReplies.succeed with verify := false }

/-- The first sweep after the failed verification accepts the vertex and its transaction. -/
theorem failed_vertex_accepted :
    .rejectVertex 1 true ∈ (runEngine [.processVertex unsoundVertex failVerify]).calls ∧
      ¬ Runs.Always step (StaysOut unsoundVertex)
        (runEngine [.processVertex unsoundVertex failVerify]) [.sweep (.succeed .increasing)] := by
  refine ⟨by decide, ?_⟩
  rintro ⟨_, unaccepted, _⟩
  exact unaccepted (by decide)

/-- With a child of the failed vertex processed first, the sweep passes it by. -/
theorem failed_parent_stays_out :
    Runs.Always step (StaysOut unsoundVertex)
      (runEngine [.processVertex unsoundVertex failVerify])
      [.processVertex ⟨2, [1], [⟨12, [8]⟩], 0⟩ .succeed, .sweep (.succeed .increasing)] := by
  refine (failed_vertex_stays_out (fun _ => []) [] _ unsoundVertex failVerify (by decide) rfl
    rfl).2.1 ⟨trivial, ?_, trivial⟩
  intro inFrontier
  exact absurd inFrontier (by decide)

end AvalancheParallel.Consensus
