import AvalancheParallel.Consensus.ParallelEngine

/-!
# What a sweep of the decision loop can do

One sweep leaves the vertices, the edges, the conflict sets and the rejected
transactions as they are. The rejection loop runs only after the accept test has
found every conflicting transaction rejected already, so it adds nothing to
`txsRejected`. What a sweep may add is stated once, as `Progress`: accepted
transactions that pass the accept test in the state before the sweep, and
decision calls on transactions or on frontier vertices.
-/

namespace AvalancheParallel.Consensus

open AvalancheParallel.RangeLoop

variable {ID : Type}

/-- The parts of the engine that no sweep changes. -/
structure SameRegistry (e after : ParallelEngine ID) : Prop where
  vertices : after.vertices = e.vertices
  edgeMap : after.edgeMap = e.edgeMap
  conflicts : after.conflicts = e.conflicts
  txsRejected : after.txsRejected = e.txsRejected

namespace SameRegistry

variable {e middle after : ParallelEngine ID}

/-- Nothing changes without a step. -/
theorem refl (e : ParallelEngine ID) : SameRegistry e e := ⟨rfl, rfl, rfl, rfl⟩

/-- Two steps that leave the registry, one after the other. -/
theorem trans (first : SameRegistry e middle) (second : SameRegistry middle after) :
    SameRegistry e after :=
  ⟨second.vertices.trans first.vertices, second.edgeMap.trans first.edgeMap,
    second.conflicts.trans first.conflicts, second.txsRejected.trans first.txsRejected⟩

end SameRegistry

/-- A decision call on a transaction. -/
def IsTxCall : Call ID → Prop
  | .acceptTx _ _ | .rejectTx _ _ => True
  | .acceptVertex _ _ | .rejectVertex _ _ => False

/-- What a stretch of a sweep may do: keep the registry, accept transactions that
`grants` admits and make calls that `allowed` admits. -/
structure Progress (allowed : Call ID → Prop) (grants : ID → Prop)
    (e after : ParallelEngine ID) : Prop where
  registry : SameRegistry e after
  kept : e.txsAccepted ⊆ after.txsAccepted
  granted : ∀ tx ∈ after.txsAccepted, tx ∈ e.txsAccepted ∨ grants tx
  calls : ∃ made, after.calls = made ++ e.calls ∧ ∀ call ∈ made, allowed call

namespace Progress

variable {allowed : Call ID → Prop} {grants : ID → Prop} {e middle after : ParallelEngine ID}

/-- Nothing is decided without a step. -/
theorem refl (e : ParallelEngine ID) : Progress allowed grants e e :=
  ⟨SameRegistry.refl e, subset_rfl, fun _ member => Or.inl member, [], rfl, by simp⟩

/-- Two steps with the same allowances, one after the other. -/
theorem trans (first : Progress allowed grants e middle)
    (second : Progress allowed grants middle after) : Progress allowed grants e after := by
  obtain ⟨earlier, before, beforeAllowed⟩ := first.calls
  obtain ⟨later, next, nextAllowed⟩ := second.calls
  refine ⟨first.registry.trans second.registry, first.kept.trans second.kept, ?_,
    later ++ earlier, by rw [next, before, List.append_assoc], ?_⟩
  · intro tx member
    rcases second.granted tx member with inMiddle | admitted
    · exact first.granted tx inMiddle
    · exact Or.inr admitted
  · intro call member
    rcases List.mem_append.mp member with inLater | inEarlier
    · exact nextAllowed call inLater
    · exact beforeAllowed call inEarlier

/-- More calls and more acceptances may be allowed. -/
theorem mono {allowed' : Call ID → Prop} {grants' : ID → Prop}
    (moreCalls : ∀ call, allowed call → allowed' call) (moreGrants : ∀ tx, grants tx → grants' tx)
    (progress : Progress allowed grants e after) : Progress allowed' grants' e after := by
  obtain ⟨made, appended, admitted⟩ := progress.calls
  exact ⟨progress.registry, progress.kept,
    fun tx member => (progress.granted tx member).imp_right (moreGrants tx),
    made, appended, fun call member => moreCalls call (admitted call member)⟩

/-- Making one admitted call is progress. -/
theorem record (e : ParallelEngine ID) (call : Call ID) (admitted : allowed call) :
    Progress allowed grants e (e.record call) := by
  refine ⟨⟨rfl, rfl, rfl, rfl⟩, subset_rfl, fun _ member => Or.inl member, [call], rfl, ?_⟩
  intro made member
  rw [List.mem_singleton.mp member]
  exact admitted

/-- A loop makes progress when each body execution does. -/
theorem forRange {α : Type} {body : ℕ → α → ParallelEngine ID → Outcome ID} {elements : List α}
    (progresses : ∀ index, ∀ element ∈ elements, ∀ state, Progress allowed grants e state →
      Progress allowed grants state (body index element state).1) :
    Progress allowed grants e (RangeLoop.forRange body elements e).1 :=
  forRange_preserves (Progress allowed grants e)
    (fun index element member state before =>
      before.trans (progresses index element member state before)) (refl e)

end Progress

variable [DecidableEq ID]

/-- The frontier as a set, without an order. -/
def ParallelEngine.frontier (e : ParallelEngine ID) : Finset ID :=
  e.vertices.keys.filter (fun vertexID => vertexID ∉ e.isParent)

/-- The order of iteration does not change which vertices are in the frontier. -/
@[simp] theorem mem_getFrontier (order : IterationOrder ID) (e : ParallelEngine ID)
    (vertexID : ID) :
    vertexID ∈ e.getFrontier order ↔ vertexID ∈ e.frontier := by
  simp [ParallelEngine.getFrontier, ParallelEngine.frontier]

/-- The transaction belongs to a vertex in the vertices map. -/
def Processed (e : ParallelEngine ID) (tx : Tx ID) : Prop :=
  ∃ vertexID vertex, e.vertices.lookup vertexID = some vertex ∧ tx ∈ vertex.txs

/-- Every other transaction registered under an input of this one is rejected. -/
def Clear (e : ParallelEngine ID) (tx : Tx ID) : Prop :=
  ∀ inputID ∈ tx.inputIDs, ∀ other ∈ e.conflictSet inputID, other = tx.id ∨ other ∈ e.txsRejected

/-- The accept test decides `Clear`, whatever the order of its loops. -/
theorem canAccept_iff (order : ℕ → IterationOrder ID) (tx : Tx ID) (e : ParallelEngine ID) :
    canAccept order tx e = true ↔ Clear e tx := by
  have inner (position : IterationOrder ID) (inputID : ID) :
      inputClear position tx e inputID = true ↔
        ∀ other ∈ e.conflictSet inputID, other = tx.id ∨ other ∈ e.txsRejected := by
    cases found : e.conflicts.lookup inputID <;>
      simp [inputClear, ParallelEngine.conflictSet, found]
  simp only [canAccept, List.all_eq_true, inner, Clear]
  constructor
  · intro tested inputID member
    obtain ⟨index, bound, here⟩ := List.getElem_of_mem member
    exact tested (inputID, index) (List.mem_zipIdx_iff_getElem?.mpr (by simp [here, bound]))
  · intro clear input member
    exact clear input.1 (List.fst_mem_of_mem_zipIdx member)

namespace SameRegistry

variable {e after : ParallelEngine ID}

/-- The conflicts of an input stay the same. -/
theorem conflictSet (same : SameRegistry e after) (inputID : ID) :
    after.conflictSet inputID = e.conflictSet inputID := by
  simp only [ParallelEngine.conflictSet, same.conflicts]

/-- The parents stay the same. -/
theorem isParent (same : SameRegistry e after) : after.isParent = e.isParent := by
  simp only [ParallelEngine.isParent, ParallelEngine.recordedParents, same.edgeMap]

/-- A transaction stays clear of conflicts, or not. -/
theorem clear (same : SameRegistry e after) (tx : Tx ID) : Clear after tx ↔ Clear e tx := by
  simp only [Clear, same.conflictSet, same.txsRejected]

end SameRegistry

/-- Grants nothing: the accepted set is unchanged. -/
def noGrant : ID → Prop := fun _ => False

/-- Rejecting an already rejected transaction again only makes calls. -/
theorem rejectConflict_progress (replies : TxReplies ID) (index : ℕ) (conflictTxID : ID)
    (e : ParallelEngine ID) (already : conflictTxID ∈ e.txsRejected) :
    Progress IsTxCall noGrant e (rejectConflict replies index conflictTxID e).1 := by
  unfold rejectConflict
  apply Progress.forRange
  intro _ vertexID _ state before
  cases found : state.vertices.lookup vertexID with
  | none => exact Progress.refl state
  | some vertex =>
    apply Progress.forRange
    intro position vtxTx _ current between
    by_cases same : vtxTx.id = conflictTxID
    · have rejected : conflictTxID ∈ current.txsRejected := by
        rw [between.registry.txsRejected, before.registry.txsRejected]
        exact already
      have called : Progress IsTxCall noGrant current
          (current.record (.rejectTx conflictTxID
            (replies.reject index conflictTxID vertexID position))) :=
        Progress.record current _ trivial
      simp only [rejectIn, same, if_true]
      split
      · simpa only [ParallelEngine.record, Finset.insert_eq_of_mem rejected] using called
      · exact called
    · simpa only [rejectIn, same, if_false] using Progress.refl current

/-- After a passed accept test the rejection loop changes no set. -/
theorem rejectConflicts_progress (replies : TxReplies ID) (tx : Tx ID) (e : ParallelEngine ID)
    (clear : Clear e tx) : Progress IsTxCall noGrant e (rejectConflicts replies tx e).1 := by
  unfold rejectConflicts
  apply Progress.forRange
  intro index inputID input state before
  cases found : state.conflicts.lookup inputID with
  | none => exact Progress.refl state
  | some conflicts =>
    apply Progress.forRange
    intro _ conflictTxID member current between
    by_cases same : conflictTxID = tx.id
    · simpa only [same, if_true] using Progress.refl current
    · have inSet : conflictTxID ∈ e.conflictSet inputID := by
        rw [← before.registry.conflictSet]
        simpa [ParallelEngine.conflictSet, found] using member
      have rejected : conflictTxID ∈ current.txsRejected := by
        rw [between.registry.txsRejected, before.registry.txsRejected]
        exact (clear inputID input conflictTxID inSet).resolve_left same
      simpa only [same, if_false] using
        rejectConflict_progress replies index conflictTxID current rejected

/-- The engine after a transaction has been accepted, before the rejection loop. -/
def accepting (tx : Tx ID) (e : ParallelEngine ID) : ParallelEngine ID :=
  { e.record (.acceptTx tx.id true) with txsAccepted := insert tx.id e.txsAccepted }

/-- Recording an acceptance changes no conflict. -/
theorem accepting_clear (tx : Tx ID) (e : ParallelEngine ID) :
    Clear (accepting tx e) tx ↔ Clear e tx := Iff.rfl

/-- The rejection loop does not touch the accepted set. -/
theorem rejectConflicts_accepted (replies : TxReplies ID) (tx : Tx ID) (e : ParallelEngine ID)
    (clear : Clear e tx) : (rejectConflicts replies tx e).1.txsAccepted = e.txsAccepted := by
  have progress := rejectConflicts_progress replies tx e clear
  apply Finset.Subset.antisymm
  · intro other member
    exact (progress.granted other member).resolve_right (fun impossible => impossible)
  · exact progress.kept

/-- A decision accepts at most its own transaction, and only a clear one. -/
theorem decideTx_progress (replies : TxReplies ID) (tx : Tx ID) (e : ParallelEngine ID) :
    Progress IsTxCall (fun other => other = tx.id ∧ Clear e tx) e (decideTx replies tx e).1 := by
  unfold decideTx
  split
  · exact Progress.refl e
  split
  · exact Progress.refl e
  split
  · exact Progress.refl e
  split
  · rename_i passed
    have clear : Clear e tx := (canAccept_iff replies.testOrder tx e).mp passed
    by_cases accepted : replies.accept = true
    · simp only [accepted, if_true]
      have granted : Progress IsTxCall (fun other => other = tx.id ∧ Clear e tx) e
          (accepting tx e) := by
        refine ⟨⟨rfl, rfl, rfl, rfl⟩, Finset.subset_insert _ _, ?_,
          [.acceptTx tx.id true], rfl, by simp [IsTxCall]⟩
        intro other member
        rcases Finset.mem_insert.mp member with same | already
        · exact Or.inr ⟨same, clear⟩
        · exact Or.inl already
      have rejections : Progress IsTxCall noGrant (accepting tx e)
          (rejectConflicts replies tx (accepting tx e)).1 :=
        rejectConflicts_progress replies tx (accepting tx e) ((accepting_clear tx e).mpr clear)
      exact granted.trans (rejections.mono (fun _ admitted => admitted)
        (fun _ impossible => impossible.elim))
    · simp only [accepted, Bool.false_eq_true, if_false]
      exact Progress.record e _ trivial
  · exact Progress.refl e

/-- The transactions one frontier vertex may get accepted: its clear ones. -/
def VertexGrant (e : ParallelEngine ID) (vertexID txID : ID) : Prop :=
  ∃ vertex, e.vertices.lookup vertexID = some vertex ∧
    ∃ tx ∈ vertex.txs, tx.id = txID ∧ Clear e tx

/-- Every transaction of the vertex is decided already, or admitted by `grants`. -/
def MayDecide (grants : ID → Prop) (e : ParallelEngine ID) (vertex : Vertex ID) : Prop :=
  ∀ tx ∈ vertex.txs, tx.id ∈ e.txsRejected ∨ tx.id ∈ e.txsAccepted ∨ grants tx.id

/-- The calls one frontier vertex may cause: calls on transactions, and `Accept`
on the vertex itself when all its transactions may be decided. -/
def VertexCall (e : ParallelEngine ID) (vertexID : ID) (call : Call ID) : Prop :=
  IsTxCall call ∨ ∃ vertex reply, e.vertices.lookup vertexID = some vertex ∧
    call = .acceptVertex vertex.id reply ∧ MayDecide (VertexGrant e vertexID) e vertex

/-- What is decided after a stretch was decided before it or admitted by it. -/
theorem Progress.mayDecide {allowed : Call ID → Prop} {grants : ID → Prop}
    {e after : ParallelEngine ID} (progress : Progress allowed grants e after)
    (vertex : Vertex ID) (decidedAll : allDecided after vertex.txs = true) :
    MayDecide grants e vertex := by
  intro tx member
  have decided : tx.id ∈ after.txsAccepted ∨ tx.id ∈ after.txsRejected := by
    simpa using List.all_eq_true.mp decidedAll tx member
  rcases decided with accepted | rejected
  · exact Or.inr (progress.granted tx.id accepted)
  · exact Or.inl (progress.registry.txsRejected ▸ rejected)

/-- The transaction loop of a frontier vertex accepts clear transactions of its list. -/
theorem decideTxLoop_progress (replies : ℕ → TxReplies ID) (txs : List (Tx ID))
    (e : ParallelEngine ID) :
    Progress IsTxCall (fun txID => ∃ tx ∈ txs, tx.id = txID ∧ Clear e tx) e
      (forRange (fun index => decideTx (replies index)) txs e).1 := by
  apply Progress.forRange
  intro index tx member state before
  refine (decideTx_progress (replies index) tx state).mono (fun _ admitted => admitted) ?_
  rintro txID ⟨same, clear⟩
  exact ⟨tx, member, same.symm, (before.registry.clear tx).mp clear⟩

/-- Handling one frontier vertex makes the progress its vertex admits. -/
theorem decideVertex_progress (replies : VertexReplies ID) (vertexID : ID)
    (e : ParallelEngine ID) :
    Progress (VertexCall e vertexID) (VertexGrant e vertexID) e
      (decideVertex replies vertexID e).1 := by
  unfold decideVertex
  cases found : e.vertices.lookup vertexID with
  | none => exact Progress.refl e
  | some vertex =>
    have txLoop : Progress (VertexCall e vertexID) (VertexGrant e vertexID) e
        (forRange (fun index => decideTx (replies.tx index)) vertex.txs e).1 :=
      (decideTxLoop_progress replies.tx vertex.txs e).mono (fun _ isTx => Or.inl isTx)
        (fun _ grant => ⟨vertex, found, grant⟩)
    dsimp only
    split
    · exact Progress.refl e
    · cases outcome : forRange (fun index => decideTx (replies.tx index)) vertex.txs e with
      | mk decided failed =>
        rw [outcome] at txLoop
        cases failed with
        | some failure => exact txLoop
        | none =>
          refine txLoop.trans ?_
          simp only [acceptDecided]
          split
          · rename_i decidedAll
            exact Progress.record decided _ (Or.inr ⟨vertex, replies.accept, found, rfl,
              txLoop.mayDecide vertex decidedAll⟩)
          · exact Progress.refl decided

/-- The transactions a sweep may accept: clear ones of frontier vertices. -/
def SweepGrant (e : ParallelEngine ID) (txID : ID) : Prop :=
  ∃ vertexID ∈ e.frontier, VertexGrant e vertexID txID

/-- The calls a sweep may make: calls on transactions, and `Accept` on frontier
vertices whose transactions may all be decided. -/
def SweepCall (e : ParallelEngine ID) (call : Call ID) : Prop :=
  IsTxCall call ∨ ∃ vertexID ∈ e.frontier, ∃ vertex reply,
    e.vertices.lookup vertexID = some vertex ∧ call = .acceptVertex vertex.id reply ∧
      MayDecide (SweepGrant e) e vertex

/-- What one sweep can do, for every order of iteration and every reply, whether
or not it ends with an error. -/
theorem sweep_progress (replies : SweepReplies ID) (e : ParallelEngine ID) :
    Progress (SweepCall e) (SweepGrant e) e (sweep replies e).1 := by
  apply Progress.forRange
  intro index vertexID member state before
  have inFrontier : vertexID ∈ e.frontier := (mem_getFrontier replies.order e vertexID).mp member
  have admits : ∀ txID, VertexGrant state vertexID txID → SweepGrant e txID := by
    rintro txID ⟨vertex, found, tx, inside, same, clear⟩
    exact ⟨vertexID, inFrontier, vertex, before.registry.vertices ▸ found, tx, inside, same,
      (before.registry.clear tx).mp clear⟩
  refine (decideVertex_progress (replies.vertex index) vertexID state).mono ?_ admits
  rintro call (isTx | ⟨vertex, reply, found, same, mayDecide⟩)
  · exact Or.inl isTx
  · refine Or.inr ⟨vertexID, inFrontier, vertex, reply, before.registry.vertices ▸ found, same, ?_⟩
    intro tx member
    rcases mayDecide tx member with rejected | accepted | granted
    · exact Or.inl (before.registry.txsRejected ▸ rejected)
    · exact Or.inr (before.granted tx.id accepted)
    · exact Or.inr (Or.inr (admits tx.id granted))

end AvalancheParallel.Consensus
