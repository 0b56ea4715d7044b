import AvalancheParallel.Consensus.SweepLaws

/-!
# What processing a vertex can do

`ProcessVertex` on a known vertex changes nothing. On a new vertex it stores the
vertex, records its parents when `Parents` succeeds, and registers undecided
transactions in the conflict sets of their inputs until a call fails. The facts
are collected in `Registration`; the accepted and rejected sets never change.

The second part states the invariants that hold in every reachable state: the
rejected set is empty, keys and edges belong to stored vertices, and accepted
transactions and vertices come from the vertices map.
-/

namespace AvalancheParallel.Consensus

open AvalancheParallel.RangeLoop

variable {ID : Type}

/-- The engines agree in everything but their conflict sets. -/
def OnlyConflicts (e after : ParallelEngine ID) : Prop :=
  after = { e with conflicts := after.conflicts }

/-- Two steps that change the conflicts only, one after the other. -/
theorem OnlyConflicts.trans {e middle after : ParallelEngine ID} (first : OnlyConflicts e middle)
    (second : OnlyConflicts middle after) : OnlyConflicts e after := by
  unfold OnlyConflicts at first second ⊢
  rw [first] at second
  exact second

variable [DecidableEq ID]

/-- Adding to one conflict set leaves the others alone. -/
theorem mem_conflictSet_addConflict (txID inputID other queried : ID) (e : ParallelEngine ID) :
    other ∈ (addConflict txID e inputID).conflictSet queried ↔
      other ∈ e.conflictSet queried ∨ (other = txID ∧ queried = inputID) := by
  by_cases same : queried = inputID
  · subst same
    simp [addConflict, ParallelEngine.conflictSet, or_comm]
  · simp [addConflict, ParallelEngine.conflictSet, Finmap.lookup_insert_of_ne _ same, same]

/-- Registering a transaction adds it to the conflict set of each of its inputs. -/
theorem mem_conflictSet_inputs (txID other queried : ID) (inputIDs : List ID)
    (e : ParallelEngine ID) :
    other ∈ (inputIDs.foldl (addConflict txID) e).conflictSet queried ↔
      other ∈ e.conflictSet queried ∨ (other = txID ∧ queried ∈ inputIDs) := by
  induction inputIDs generalizing e with
  | nil => simp
  | cons inputID rest inductionHypothesis =>
    rw [List.foldl_cons, inductionHypothesis, mem_conflictSet_addConflict, List.mem_cons,
      or_assoc, ← and_or_left]

/-- Registering a transaction for its inputs changes the conflicts only. -/
theorem onlyConflicts_inputs (txID : ID) (inputIDs : List ID) (e : ParallelEngine ID) :
    OnlyConflicts e (inputIDs.foldl (addConflict txID) e) := by
  induction inputIDs generalizing e with
  | nil => rfl
  | cons inputID rest inductionHypothesis =>
    have first : OnlyConflicts e (addConflict txID e inputID) := rfl
    exact first.trans (inductionHypothesis (addConflict txID e inputID))

/-- The undecided transactions of a list. -/
def Undecided (e : ParallelEngine ID) (txID : ID) : Prop :=
  txID ∉ e.txsAccepted ∧ txID ∉ e.txsRejected

/-- What the registration loop of `ProcessVertex` may do with a list of transactions. -/
structure Registers (txs : List (Tx ID)) (e after : ParallelEngine ID) : Prop where
  only : OnlyConflicts e after
  kept : ∀ inputID, e.conflictSet inputID ⊆ after.conflictSet inputID
  added : ∀ inputID, ∀ txID ∈ after.conflictSet inputID, txID ∈ e.conflictSet inputID ∨
    ∃ tx ∈ txs, tx.id = txID ∧ inputID ∈ tx.inputIDs ∧ Undecided e txID ∧
      ∀ otherInput ∈ tx.inputIDs, txID ∈ after.conflictSet otherInput

namespace Registers

variable {txs : List (Tx ID)} {e middle after : ParallelEngine ID}

/-- Nothing is registered without a step. -/
theorem refl (e : ParallelEngine ID) : Registers txs e e :=
  ⟨rfl, fun _ => subset_rfl, fun _ _ member => Or.inl member⟩

/-- Registering decides nothing. -/
theorem undecided (registers : Registers txs e after) (txID : ID) :
    Undecided after txID ↔ Undecided e txID := by
  unfold Undecided
  rw [registers.only]

/-- Two registrations, one after the other. -/
theorem trans (first : Registers txs e middle) (second : Registers txs middle after) :
    Registers txs e after := by
  refine ⟨first.only.trans second.only,
    fun inputID => (first.kept inputID).trans (second.kept inputID), ?_⟩
  intro inputID txID member
  rcases second.added inputID txID member with inMiddle | ⟨tx, inside, same, input, open_, full⟩
  · rcases first.added inputID txID inMiddle with old | ⟨tx, inside, same, input, open_, full⟩
    · exact Or.inl old
    · exact Or.inr ⟨tx, inside, same, input, open_,
        fun otherInput listed => second.kept otherInput (full otherInput listed)⟩
  · exact Or.inr ⟨tx, inside, same, input, (first.undecided txID).mp open_, full⟩

end Registers

/-- One iteration of the registration loop. -/
theorem registerTx_registers (replies : ProcessReplies) (index : ℕ) (tx : Tx ID)
    (txs : List (Tx ID)) (member : tx ∈ txs) (e : ParallelEngine ID) :
    Registers txs e (registerTx replies index tx e).1 := by
  unfold registerTx
  split
  · exact Registers.refl e
  split
  · exact Registers.refl e
  split
  · exact Registers.refl e
  · rename_i unaccepted unrejected _
    refine ⟨onlyConflicts_inputs tx.id tx.inputIDs e, ?_, ?_⟩
    · intro inputID other already
      exact (mem_conflictSet_inputs tx.id other inputID tx.inputIDs e).mpr (Or.inl already)
    · intro inputID other present
      rcases (mem_conflictSet_inputs tx.id other inputID tx.inputIDs e).mp present with
        already | ⟨rfl, input⟩
      · exact Or.inl already
      · refine Or.inr ⟨tx, member, rfl, input, ⟨unaccepted, unrejected⟩, ?_⟩
        intro otherInput listed
        exact (mem_conflictSet_inputs tx.id tx.id otherInput tx.inputIDs e).mpr
          (Or.inr ⟨rfl, listed⟩)

/-- The whole registration loop, whether or not it completes. -/
theorem registerLoop_registers (replies : ProcessReplies) (txs : List (Tx ID))
    (e : ParallelEngine ID) : Registers txs e (forRange (registerTx replies) txs e).1 :=
  forRange_preserves (Registers txs e)
    (fun index tx member state before =>
      before.trans (registerTx_registers replies index tx txs member state)) (Registers.refl e)

/-- When `InputIDs` never fails, each undecided transaction is registered under
each of its inputs. -/
theorem registerLoop_complete (replies : ProcessReplies) (txs : List (Tx ID))
    (e : ParallelEngine ID) (listed : ∀ index, replies.inputIDs index = true) (tx : Tx ID)
    (member : tx ∈ txs) (undecided : Undecided e tx.id) (inputID : ID)
    (input : inputID ∈ tx.inputIDs) :
    tx.id ∈ (forRange (registerTx replies) txs e).1.conflictSet inputID := by
  have completed : (forRange (registerTx replies) txs e).2 = none := by
    refine forRange_completes (fun _ => True) ?_ trivial
    intro index visited _ state _
    refine ⟨trivial, ?_⟩
    unfold registerTx
    simp only [listed, Bool.not_true, Bool.false_eq_true, if_false]
    split <;> [rfl; (split <;> rfl)]
  refine forRange_establishes (Registers txs e)
    (fun visited state => visited = tx → tx.id ∈ state.conflictSet inputID)
    ?_ ?_ ?_ (Registers.refl e) completed tx member rfl
  · intro index visited inside state before
    exact before.trans (registerTx_registers replies index visited txs inside state)
  · rintro index visited inside state before _ rfl
    obtain ⟨unaccepted, unrejected⟩ := (before.undecided visited.id).mpr undecided
    simp only [registerTx, unaccepted, unrejected, listed, if_false, Bool.not_true,
      Bool.false_eq_true]
    exact (mem_conflictSet_inputs visited.id visited.id inputID visited.inputIDs state).mpr
      (Or.inr ⟨rfl, input⟩)
  · intro index visited inside other _ state _ already same
    exact (registerTx_registers replies index visited txs inside state).kept inputID (already same)

/-- The calls before the registration loop succeed, so that the loop is reached. -/
def ProcessReplies.Opens (replies : ProcessReplies) : Prop :=
  replies.parents = true ∧ replies.verify = true ∧ replies.txs = true

/-- Every call of `ProcessVertex` succeeds, so that the registration loop runs
through all transactions. -/
def ProcessReplies.Complete (replies : ProcessReplies) : Prop :=
  replies.parents = true ∧ replies.verify = true ∧ replies.txs = true ∧
    ∀ index, replies.inputIDs index = true

/-- What `ProcessVertex` does with a vertex that is not yet in the map. -/
structure Registration (replies : ProcessReplies) (vertex : Vertex ID)
    (e after : ParallelEngine ID) : Prop where
  vertices : after.vertices = e.vertices.insert vertex.id vertex
  edgeMap : after.edgeMap =
    if replies.parents then e.edgeMap.insert vertex.id vertex.parentIDs else e.edgeMap
  txsAccepted : after.txsAccepted = e.txsAccepted
  txsRejected : after.txsRejected = e.txsRejected
  calls : after.calls = e.calls ∨
    after.calls = .rejectVertex vertex.id replies.reject :: e.calls
  kept : ∀ inputID, e.conflictSet inputID ⊆ after.conflictSet inputID
  added : ∀ inputID, ∀ txID ∈ after.conflictSet inputID, txID ∈ e.conflictSet inputID ∨
    replies.Opens ∧ ∃ tx ∈ vertex.txs, tx.id = txID ∧ inputID ∈ tx.inputIDs ∧ Undecided e txID ∧
      ∀ otherInput ∈ tx.inputIDs, txID ∈ after.conflictSet otherInput
  complete : replies.Complete → ∀ tx ∈ vertex.txs, Undecided e tx.id →
    ∀ inputID ∈ tx.inputIDs, tx.id ∈ after.conflictSet inputID

/-- A vertex already in the map is not processed again. -/
theorem processVertex_known (replies : ProcessReplies) (vertex : Vertex ID)
    (e : ParallelEngine ID) (known : vertex.id ∈ e.vertices) :
    processVertex replies vertex e = (e, none) := by
  simp only [processVertex, known, if_true]

/-- An early return: the conflict sets are as before. -/
theorem Registration.stopped {replies : ProcessReplies} {vertex : Vertex ID}
    {e : ParallelEngine ID} {edgeMap : GoMap ID (List ID)} {calls : List (Call ID)}
    (linked : edgeMap =
      if replies.parents then e.edgeMap.insert vertex.id vertex.parentIDs else e.edgeMap)
    (called : calls = e.calls ∨ calls = .rejectVertex vertex.id replies.reject :: e.calls)
    (incomplete : ¬ replies.Complete) :
    Registration replies vertex e { e with
      vertices := e.vertices.insert vertex.id vertex
      edgeMap := edgeMap
      calls := calls } where
  vertices := rfl
  edgeMap := linked
  txsAccepted := rfl
  txsRejected := rfl
  calls := called
  kept := fun _ => subset_rfl
  added := fun _ _ member => Or.inl member
  complete := fun complete => absurd complete incomplete

/-- The inversion of `ProcessVertex` on a new vertex, covering its early returns. -/
theorem processVertex_new (replies : ProcessReplies) (vertex : Vertex ID) (e : ParallelEngine ID)
    (fresh : vertex.id ∉ e.vertices) :
    Registration replies vertex e (processVertex replies vertex e).1 := by
  unfold processVertex
  simp only [fresh, if_false]
  by_cases parents : replies.parents = true
  · simp only [parents, Bool.not_true, Bool.false_eq_true, if_false]
    by_cases verify : replies.verify = true
    · simp only [verify, Bool.not_true, Bool.false_eq_true, if_false]
      by_cases txs : replies.txs = true
      · simp only [txs, Bool.not_true, Bool.false_eq_true, if_false]
        let linked : ParallelEngine ID := { e with
          vertices := e.vertices.insert vertex.id vertex
          edgeMap := e.edgeMap.insert vertex.id vertex.parentIDs }
        have loop : Registers vertex.txs linked
            (forRange (registerTx replies) vertex.txs linked).1 :=
          registerLoop_registers replies vertex.txs linked
        have only := loop.only
        unfold OnlyConflicts at only
        exact
          { vertices := by rw [only]
            edgeMap := by rw [only]; simp [linked, parents]
            txsAccepted := by rw [only]
            txsRejected := by rw [only]
            calls := Or.inl (by rw [only])
            kept := loop.kept
            added := fun inputID txID member => (loop.added inputID txID member).imp_right
              (fun new => ⟨⟨parents, verify, txs⟩, new⟩)
            complete := fun complete tx member undecided inputID input =>
              registerLoop_complete replies vertex.txs linked complete.2.2.2 tx member undecided
                inputID input }
      · simp only [txs, Bool.not_false, if_true]
        exact .stopped (by simp [parents]) (Or.inl rfl) (fun complete => txs complete.2.2.1)
    · simp only [verify, Bool.not_false, if_true]
      exact .stopped (by simp [parents]) (Or.inr rfl) (fun complete => verify complete.2.1)
  · simp only [parents, Bool.not_false, if_true]
    exact .stopped (by simp [parents]) (Or.inl rfl) (fun complete => parents complete.1)

/-- `ProcessVertex` makes no `Accept` call on a vertex. -/
theorem Registration.acceptVertex_mem {replies : ProcessReplies} {vertex : Vertex ID}
    {e after : ParallelEngine ID} (new : Registration replies vertex e after) {vertexID : ID}
    {reply : Bool} (called : .acceptVertex vertexID reply ∈ after.calls) :
    .acceptVertex vertexID reply ∈ e.calls := by
  rcases new.calls with same | same <;> rw [same] at called
  · exact called
  · simpa using called

/-- What holds before a call and after the processing of a new vertex holds after the call. -/
theorem processVertex_preserves {property : ParallelEngine ID → Prop} (replies : ProcessReplies)
    (vertex : Vertex ID) (e : ParallelEngine ID) (before : property e)
    (afterNew : vertex.id ∉ e.vertices → property (processVertex replies vertex e).1) :
    property (processVertex replies vertex e).1 := by
  by_cases known : vertex.id ∈ e.vertices
  · rw [processVertex_known replies vertex e known]
    exact before
  · exact afterNew known

/-- Facts about every reachable state. No transaction is ever rejected: the
only write to `txsRejected` comes after a test that found its member there. -/
structure Wellformed (e : ParallelEngine ID) : Prop where
  rejected : e.txsRejected = ∅
  keys : ∀ vertexID vertex, e.vertices.lookup vertexID = some vertex → vertex.id = vertexID
  edges : ∀ vertexID parentIDs, e.edgeMap.lookup vertexID = some parentIDs →
    ∃ vertex, e.vertices.lookup vertexID = some vertex ∧ vertex.parentIDs = parentIDs
  accepted : ∀ txID ∈ e.txsAccepted, ∃ tx, Processed e tx ∧ tx.id = txID
  acceptCalls : ∀ vertexID reply, .acceptVertex vertexID reply ∈ e.calls → vertexID ∈ e.vertices

/-- A stored vertex stays stored, under the same contents, in every step. -/
theorem processVertex_lookup (replies : ProcessReplies) (vertex : Vertex ID)
    (e : ParallelEngine ID) (vertexID : ID) (stored : Vertex ID)
    (found : e.vertices.lookup vertexID = some stored) :
    (processVertex replies vertex e).1.vertices.lookup vertexID = some stored := by
  by_cases known : vertex.id ∈ e.vertices
  · rw [processVertex_known replies vertex e known]
    exact found
  · have different : vertexID ≠ vertex.id := by
      rintro rfl
      exact known (Finmap.mem_of_lookup_eq_some found)
    rw [(processVertex_new replies vertex e known).vertices, Finmap.lookup_insert_of_ne _ different]
    exact found

/-- A stored vertex is never replaced. -/
theorem step_lookup (e : ParallelEngine ID) (action : Action ID) (vertexID : ID)
    (stored : Vertex ID) (found : e.vertices.lookup vertexID = some stored) :
    (step e action).vertices.lookup vertexID = some stored := by
  cases action with
  | processVertex vertex replies =>
    exact processVertex_lookup replies vertex e vertexID stored found
  | sweep replies =>
    change (sweep replies e).1.vertices.lookup vertexID = some stored
    rw [(sweep_progress replies e).registry.vertices]
    exact found

/-- A processed transaction stays processed. -/
theorem step_processed (e : ParallelEngine ID) (action : Action ID) (tx : Tx ID)
    (processed : Processed e tx) : Processed (step e action) tx := by
  obtain ⟨vertexID, vertex, found, member⟩ := processed
  exact ⟨vertexID, vertex, step_lookup e action vertexID vertex found, member⟩

/-- The new engine is well formed. -/
theorem newParallelEngine_wellformed : Wellformed (newParallelEngine : ParallelEngine ID) := by
  constructor <;> simp [newParallelEngine]

/-- Processing a new vertex keeps the engine well formed. -/
theorem processVertex_wellformed (replies : ProcessReplies) (vertex : Vertex ID)
    (e : ParallelEngine ID) (fresh : vertex.id ∉ e.vertices) (wellformed : Wellformed e) :
    Wellformed (processVertex replies vertex e).1 := by
  have new := processVertex_new replies vertex e fresh
  constructor
  · rw [new.txsRejected, wellformed.rejected]
  · intro vertexID stored found
    rw [new.vertices] at found
    obtain ⟨rfl, rfl⟩ | ⟨_, earlier⟩ := lookup_insert_cases found
    · rfl
    · exact wellformed.keys vertexID stored earlier
  · intro vertexID parentIDs found
    have old : e.edgeMap.lookup vertexID = some parentIDs →
        ∃ stored, (processVertex replies vertex e).1.vertices.lookup vertexID = some stored ∧
          stored.parentIDs = parentIDs := by
      intro recorded
      obtain ⟨stored, here, same⟩ := wellformed.edges vertexID parentIDs recorded
      exact ⟨stored, processVertex_lookup replies vertex e vertexID stored here, same⟩
    rw [new.edgeMap] at found
    split at found
    · obtain ⟨rfl, rfl⟩ | ⟨_, earlier⟩ := lookup_insert_cases found
      · exact ⟨vertex, by rw [new.vertices, Finmap.lookup_insert], rfl⟩
      · exact old earlier
    · exact old found
  · intro txID member
    rw [new.txsAccepted] at member
    obtain ⟨tx, processed, same⟩ := wellformed.accepted txID member
    exact ⟨tx, step_processed e (.processVertex vertex replies) tx processed, same⟩
  · intro vertexID reply member
    rw [new.vertices, Finmap.mem_insert]
    exact Or.inr (wellformed.acceptCalls vertexID reply (new.acceptVertex_mem member))

/-- A sweep keeps the engine well formed. -/
theorem sweep_wellformed (replies : SweepReplies ID) (e : ParallelEngine ID)
    (wellformed : Wellformed e) : Wellformed (sweep replies e).1 := by
  have progress := sweep_progress replies e
  constructor
  · rw [progress.registry.txsRejected, wellformed.rejected]
  · rw [progress.registry.vertices]
    exact wellformed.keys
  · rw [progress.registry.vertices, progress.registry.edgeMap]
    exact wellformed.edges
  · intro txID member
    unfold Processed
    rw [progress.registry.vertices]
    rcases progress.granted txID member with
      already | ⟨vertexID, _, vertex, found, tx, inside, same, _⟩
    · exact wellformed.accepted txID already
    · exact ⟨tx, ⟨vertexID, vertex, found, inside⟩, same⟩
  · intro vertexID reply member
    rw [progress.registry.vertices]
    obtain ⟨made, appended, admitted⟩ := progress.calls
    rw [appended, List.mem_append] at member
    rcases member with new | old
    · rcases admitted _ new with isTx | ⟨visited, _, vertex, answered, found, same, _⟩
      · exact isTx.elim
      · have key : vertex.id = visited := wellformed.keys visited vertex found
        have named : vertexID = vertex.id := (Call.acceptVertex.inj same).1
        rw [named, key]
        exact Finmap.mem_of_lookup_eq_some found
    · exact wellformed.acceptCalls vertexID reply old

/-- Every step keeps the engine well formed. -/
theorem step_wellformed (e : ParallelEngine ID) (action : Action ID) (wellformed : Wellformed e) :
    Wellformed (step e action) := by
  cases action with
  | processVertex vertex replies =>
    apply processVertex_preserves replies vertex e wellformed
    intro fresh
    exact processVertex_wellformed replies vertex e fresh wellformed
  | sweep replies => exact sweep_wellformed replies e wellformed

/-- Every reachable state is well formed, whatever the replies and the orders. -/
theorem reachable_wellformed (actions : List (Action ID)) : Wellformed (runEngine actions) :=
  Runs.run_invariant step Wellformed step_wellformed newParallelEngine actions
    newParallelEngine_wellformed

/-- A transaction processed after a call belongs to the new vertex or was processed before. -/
theorem processed_new {e after : ParallelEngine ID} {vertex : Vertex ID}
    (stored : after.vertices = e.vertices.insert vertex.id vertex) (tx : Tx ID)
    (processed : Processed after tx) : tx ∈ vertex.txs ∨ Processed e tx := by
  obtain ⟨vertexID, found, here, member⟩ := processed
  rw [stored] at here
  obtain ⟨rfl, rfl⟩ | ⟨_, earlier⟩ := lookup_insert_cases here
  · exact Or.inl member
  · exact Or.inr ⟨vertexID, found, earlier, member⟩

/-- The inputs of each transaction of the vertex are those its ID stands for. An
ID is documented to be unique to its element. -/
def Vertex.Genuine (inputIDs : ID → List ID) (vertex : Vertex ID) : Prop :=
  ∀ tx ∈ vertex.txs, tx.inputIDs = inputIDs tx.id

/-- Each vertex the action processes is genuine. -/
def Action.Genuine (inputIDs : ID → List ID) : Action ID → Prop
  | .processVertex vertex _ => vertex.Genuine inputIDs
  | .sweep _ => True

/-- Every processed transaction has the inputs its ID stands for. -/
def AllGenuine (inputIDs : ID → List ID) (e : ParallelEngine ID) : Prop :=
  ∀ tx, Processed e tx → tx.inputIDs = inputIDs tx.id

/-- The new engine has no transactions. -/
theorem newParallelEngine_genuine (inputIDs : ID → List ID) :
    AllGenuine inputIDs (newParallelEngine : ParallelEngine ID) := by
  rintro tx ⟨vertexID, vertex, found, _⟩
  simp [newParallelEngine] at found

/-- Every step keeps the transactions those that were submitted. -/
theorem step_genuine (inputIDs : ID → List ID) (e : ParallelEngine ID) (action : Action ID)
    (genuine : action.Genuine inputIDs) (allGenuine : AllGenuine inputIDs e) :
    AllGenuine inputIDs (step e action) := by
  cases action with
  | processVertex vertex replies =>
    apply processVertex_preserves replies vertex e allGenuine
    intro fresh tx processed
    have stored := (processVertex_new replies vertex e fresh).vertices
    rcases processed_new stored tx processed with member | earlier
    · exact genuine tx member
    · exact allGenuine tx earlier
  | sweep replies =>
    have same := (sweep_progress replies e).registry.vertices
    rintro tx ⟨vertexID, vertex, found, member⟩
    change (sweep replies e).1.vertices.lookup vertexID = some vertex at found
    rw [same] at found
    exact allGenuine tx ⟨vertexID, vertex, found, member⟩

/-- Transactions with one ID pass the accept test together. -/
theorem AllGenuine.clear {inputIDs : ID → List ID} {e : ParallelEngine ID}
    (allGenuine : AllGenuine inputIDs e) {tx other : Tx ID} (processed : Processed e tx)
    (alsoProcessed : Processed e other) (same : tx.id = other.id) (clear : Clear e tx) :
    Clear e other := by
  have sameInputs : other.inputIDs = tx.inputIDs := by
    rw [allGenuine tx processed, allGenuine other alsoProcessed, same]
  intro inputID member
  rw [← same]
  exact clear inputID (sameInputs ▸ member)

end AvalancheParallel.Consensus
