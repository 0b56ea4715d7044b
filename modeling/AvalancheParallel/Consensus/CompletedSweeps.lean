import AvalancheParallel.Consensus.SweepLaws

/-!
# What a completed sweep achieves

A sweep whose method calls all succeed runs through the whole frontier. A
completed sweep accepts every clear transaction of a frontier vertex, and calls
`Accept` on every frontier vertex whose transactions are accepted or clear. With
the laws of `SweepLaws` this determines the decisions of a sweep, whatever the
order of its loops.
-/

namespace AvalancheParallel.Consensus

open AvalancheParallel.RangeLoop

variable {ID : Type} [DecidableEq ID]

/-- `InputIDs`, `Accept` and `Reject` return no error while one transaction is handled. -/
structure TxReplies.Succeeds (replies : TxReplies ID) : Prop where
  inputIDs : replies.inputIDs = true
  accept : replies.accept = true
  reject : ∀ index conflictTxID vertexID position,
    replies.reject index conflictTxID vertexID position = true

/-- No call made for one frontier vertex returns an error. -/
structure VertexReplies.Succeeds (replies : VertexReplies ID) : Prop where
  txs : replies.txs = true
  tx : ∀ index, (replies.tx index).Succeeds
  accept : replies.accept = true

/-- No call made in a sweep returns an error. -/
def SweepReplies.Succeeds (replies : SweepReplies ID) : Prop :=
  ∀ index, (replies.vertex index).Succeeds

/-- No call of a sweep returns an error; `ProcessVertex` calls are not restricted. -/
def Action.Succeeds : Action ID → Prop
  | .processVertex _ _ => True
  | .sweep replies => replies.Succeeds

omit [DecidableEq ID] in
/-- The answers without errors succeed. -/
theorem SweepReplies.succeed_succeeds (order : IterationOrder ID) :
    (SweepReplies.succeed order).Succeeds := fun _ =>
  ⟨rfl, fun _ => ⟨rfl, rfl, fun _ _ _ _ => rfl⟩, rfl⟩

/-- Without errors, rejecting a conflicting transaction completes. -/
theorem rejectConflict_completes (replies : TxReplies ID) (succeeds : replies.Succeeds)
    (index : ℕ) (conflictTxID : ID) (e : ParallelEngine ID) :
    (rejectConflict replies index conflictTxID e).2 = none := by
  refine forRange_completes (fun _ => True) (fun _ vertexID _ state _ => ⟨trivial, ?_⟩) trivial
  cases found : state.vertices.lookup vertexID with
  | none => rfl
  | some vertex =>
    refine forRange_completes (fun _ => True) (fun position vtxTx _ current _ => ⟨trivial, ?_⟩)
      trivial
    simp only [rejectIn, succeeds.reject, if_true]
    split <;> rfl

/-- Without errors, rejecting all conflicting transactions completes. -/
theorem rejectConflicts_completes (replies : TxReplies ID) (succeeds : replies.Succeeds)
    (tx : Tx ID) (e : ParallelEngine ID) : (rejectConflicts replies tx e).2 = none := by
  refine forRange_completes (fun _ => True) (fun index inputID _ state _ => ⟨trivial, ?_⟩) trivial
  cases found : state.conflicts.lookup inputID with
  | none => rfl
  | some conflicts =>
    refine forRange_completes (fun _ => True) (fun _ conflictTxID _ current _ => ⟨trivial, ?_⟩)
      trivial
    split
    · rfl
    · exact rejectConflict_completes replies succeeds index conflictTxID current

/-- Without errors, deciding a transaction completes. -/
theorem decideTx_completes (replies : TxReplies ID) (succeeds : replies.Succeeds) (tx : Tx ID)
    (e : ParallelEngine ID) : (decideTx replies tx e).2 = none := by
  unfold decideTx
  simp only [succeeds.inputIDs, succeeds.accept, Bool.not_true, Bool.false_eq_true, if_false,
    if_true]
  split
  · rfl
  split
  · rfl
  split
  · exact rejectConflicts_completes replies succeeds tx _
  · rfl

/-- Without errors, deciding the transactions of a vertex completes. -/
theorem decideTxLoop_completes (replies : ℕ → TxReplies ID)
    (succeeds : ∀ index, (replies index).Succeeds) (txs : List (Tx ID)) (e : ParallelEngine ID) :
    (forRange (fun index => decideTx (replies index)) txs e).2 = none := by
  refine forRange_completes (fun _ => True) (fun index tx _ state _ => ⟨trivial, ?_⟩) trivial
  exact decideTx_completes (replies index) (succeeds index) tx state

/-- Without errors, deciding a stored vertex completes. -/
theorem decideVertex_completes (replies : VertexReplies ID) (succeeds : replies.Succeeds)
    (vertexID : ID) (e : ParallelEngine ID) (stored : vertexID ∈ e.vertices) :
    (decideVertex replies vertexID e).2 = none := by
  obtain ⟨vertex, found⟩ := Finmap.mem_iff.mp stored
  have completed := decideTxLoop_completes replies.tx succeeds.tx vertex.txs e
  simp only [decideVertex, found, succeeds.txs, Bool.not_true, Bool.false_eq_true, if_false]
  cases outcome : forRange (fun index => decideTx (replies.tx index)) vertex.txs e with
  | mk decided failed =>
    rw [outcome] at completed
    subst completed
    simp only [acceptDecided, succeeds.accept, if_true]
    split <;> rfl

/-- Without errors the loop runs through all vertices of a list of stored ones. -/
theorem vertexLoop_completes (replies : ℕ → VertexReplies ID)
    (succeeds : ∀ index, (replies index).Succeeds) (visited : List ID) (e : ParallelEngine ID)
    (stored : ∀ vertexID ∈ visited, vertexID ∈ e.vertices) :
    (forRange (fun index => decideVertex (replies index)) visited e).2 = none := by
  refine forRange_completes (SameRegistry e) ?_ (SameRegistry.refl e)
  intro index vertexID member state same
  exact ⟨same.trans (decideVertex_progress (replies index) vertexID state).registry,
    decideVertex_completes (replies index) (succeeds index) vertexID state
      (by rw [same.vertices]; exact stored vertexID member)⟩

/-- Every frontier ID names a stored vertex, so the lookup never yields nil. -/
theorem getFrontier_stored (order : IterationOrder ID) (e : ParallelEngine ID) (vertexID : ID)
    (member : vertexID ∈ e.getFrontier order) : vertexID ∈ e.vertices :=
  Finmap.mem_keys.mp (Finset.mem_filter.mp ((mem_getFrontier order e vertexID).mp member)).1

/-- A sweep without errors runs through the whole frontier. -/
theorem sweep_completes (replies : SweepReplies ID) (succeeds : replies.Succeeds)
    (e : ParallelEngine ID) : (sweep replies e).2 = none :=
  vertexLoop_completes replies.vertex succeeds _ e (getFrontier_stored replies.order e)

/-- A decision that returns no error on a clear, unrejected transaction accepts it. -/
theorem decideTx_accepts (replies : TxReplies ID) (tx : Tx ID) (e : ParallelEngine ID)
    (clear : Clear e tx) (unrejected : tx.id ∉ e.txsRejected)
    (completed : (decideTx replies tx e).2 = none) :
    tx.id ∈ (decideTx replies tx e).1.txsAccepted := by
  have passed : canAccept replies.testOrder tx e = true :=
    (canAccept_iff replies.testOrder tx e).mpr clear
  by_cases already : tx.id ∈ e.txsAccepted
  · simp only [decideTx, already, if_true]
  · simp only [decideTx, already, unrejected, passed, if_false, if_true] at completed ⊢
    split at completed
    · simp at completed
    · rename_i listed
      simp only [listed]
      split at completed
      · rename_i accepted
        simp only [accepted, if_true]
        change tx.id ∈ (rejectConflicts replies tx (accepting tx e)).1.txsAccepted
        rw [rejectConflicts_accepted replies tx (accepting tx e) ((accepting_clear tx e).mpr clear)]
        exact Finset.mem_insert_self _ _
      · simp at completed

/-- A completed transaction loop accepts every clear, unrejected transaction. -/
theorem decideTxLoop_accepts (replies : ℕ → TxReplies ID) (txs : List (Tx ID))
    (e : ParallelEngine ID)
    (completed : (forRange (fun index => decideTx (replies index)) txs e).2 = none)
    (tx : Tx ID) (member : tx ∈ txs) (clear : Clear e tx) (unrejected : tx.id ∉ e.txsRejected) :
    tx.id ∈ (forRange (fun index => decideTx (replies index)) txs e).1.txsAccepted := by
  refine forRange_establishes (SameRegistry e)
    (fun visited state => visited = tx → tx.id ∈ state.txsAccepted)
    ?_ ?_ ?_ (SameRegistry.refl e) completed tx member rfl
  · intro index visited _ state same
    exact same.trans (decideTx_progress (replies index) visited state).registry
  · rintro index visited _ state same finished rfl
    exact decideTx_accepts (replies index) visited state ((same.clear visited).mpr clear)
      (by rw [same.txsRejected]; exact unrejected) finished
  · intro index visited _ other _ state _ already same
    exact (decideTx_progress (replies index) visited state).kept (already same)

/-- A completed visit of a vertex accepts its clear, unrejected transactions. -/
theorem decideVertex_accepts (replies : VertexReplies ID) (vertexID : ID) (e : ParallelEngine ID)
    (completed : (decideVertex replies vertexID e).2 = none) (vertex : Vertex ID)
    (found : e.vertices.lookup vertexID = some vertex) (tx : Tx ID) (member : tx ∈ vertex.txs)
    (clear : Clear e tx) (unrejected : tx.id ∉ e.txsRejected) :
    tx.id ∈ (decideVertex replies vertexID e).1.txsAccepted := by
  simp only [decideVertex, found] at completed ⊢
  split at completed
  · simp at completed
  · rename_i listed
    rw [if_neg listed]
    have accepted := decideTxLoop_accepts replies.tx vertex.txs e
    cases outcome : forRange (fun index => decideTx (replies.tx index)) vertex.txs e with
    | mk decided failed =>
      rw [outcome] at accepted
      cases failed with
      | some failure => simp [outcome] at completed
      | none =>
        have here : tx.id ∈ decided.txsAccepted := accepted rfl tx member clear unrejected
        simp only [acceptDecided]
        split <;> exact here

/-- A completed loop over vertices accepts their clear, unrejected transactions. -/
theorem vertexLoop_accepts (replies : ℕ → VertexReplies ID) (visited : List ID)
    (e : ParallelEngine ID)
    (completed : (forRange (fun index => decideVertex (replies index)) visited e).2 = none)
    (vertexID : ID) (inside : vertexID ∈ visited) (vertex : Vertex ID)
    (found : e.vertices.lookup vertexID = some vertex) (tx : Tx ID) (member : tx ∈ vertex.txs)
    (clear : Clear e tx) (unrejected : tx.id ∉ e.txsRejected) :
    tx.id ∈ (forRange (fun index => decideVertex (replies index)) visited e).1.txsAccepted := by
  refine forRange_establishes (SameRegistry e)
    (fun visited state => visited = vertexID → tx.id ∈ state.txsAccepted) ?_ ?_ ?_
    (SameRegistry.refl e) completed vertexID inside rfl
  · intro index visited _ state same
    exact same.trans (decideVertex_progress (replies index) visited state).registry
  · rintro index visited _ state same finished rfl
    exact decideVertex_accepts (replies index) visited state finished vertex
      (by rw [same.vertices, found]) tx member ((same.clear tx).mpr clear)
      (by rw [same.txsRejected]; exact unrejected)
  · intro index visited _ other _ state _ already same
    exact (decideVertex_progress (replies index) visited state).kept (already same)

/-- A completed sweep accepts every clear, unrejected transaction of a frontier
vertex. -/
theorem sweep_accepts (replies : SweepReplies ID) (e : ParallelEngine ID)
    (completed : (sweep replies e).2 = none) (vertexID : ID) (inFrontier : vertexID ∈ e.frontier)
    (vertex : Vertex ID) (found : e.vertices.lookup vertexID = some vertex) (tx : Tx ID)
    (member : tx ∈ vertex.txs) (clear : Clear e tx) (unrejected : tx.id ∉ e.txsRejected) :
    tx.id ∈ (sweep replies e).1.txsAccepted :=
  vertexLoop_accepts replies.vertex _ e completed vertexID
    ((mem_getFrontier replies.order e vertexID).mpr inFrontier) vertex found tx member clear
    unrejected

/-- The state has made a call beyond those of `e`. -/
def CalledSince (e : ParallelEngine ID) (call : Call ID) (state : ParallelEngine ID) : Prop :=
  ∃ made, state.calls = made ++ e.calls ∧ call ∈ made

omit [DecidableEq ID] in
/-- A call that was made stays made. -/
theorem CalledSince.progress {allowed : Call ID → Prop} {grants : ID → Prop}
    {e state after : ParallelEngine ID} {call : Call ID} (called : CalledSince e call state)
    (progress : Progress allowed grants state after) : CalledSince e call after := by
  obtain ⟨earlier, before, member⟩ := called
  obtain ⟨later, next, _⟩ := progress.calls
  refine ⟨later ++ earlier, ?_, List.mem_append_right later member⟩
  rw [next, before, List.append_assoc]

/-- Every transaction of the vertex is accepted or passes the accept test. -/
def Acceptable (e : ParallelEngine ID) (vertex : Vertex ID) : Prop :=
  ∀ tx ∈ vertex.txs, tx.id ∈ e.txsAccepted ∨ (Clear e tx ∧ tx.id ∉ e.txsRejected)

/-- A visit without errors of an acceptable vertex calls `Accept` on it. -/
theorem decideVertex_calls (replies : VertexReplies ID) (succeeds : replies.Succeeds)
    (vertexID : ID) (e : ParallelEngine ID) (vertex : Vertex ID)
    (found : e.vertices.lookup vertexID = some vertex) (acceptable : Acceptable e vertex) :
    CalledSince e (.acceptVertex vertex.id true) (decideVertex replies vertexID e).1 := by
  have progress := decideTxLoop_progress replies.tx vertex.txs e
  have completed := decideTxLoop_completes replies.tx succeeds.tx vertex.txs e
  have accepts := decideTxLoop_accepts replies.tx vertex.txs e completed
  simp only [decideVertex, found, succeeds.txs, Bool.not_true, Bool.false_eq_true, if_false]
  cases outcome : forRange (fun index => decideTx (replies.tx index)) vertex.txs e with
  | mk decided failed =>
    rw [outcome] at progress completed accepts
    subst completed
    have decidedAll : allDecided decided vertex.txs = true := by
      apply List.all_eq_true.mpr
      intro tx member
      have accepted : tx.id ∈ decided.txsAccepted := by
        rcases acceptable tx member with already | ⟨clear, unrejected⟩
        · exact progress.kept already
        · exact accepts tx member clear unrejected
      simp [accepted]
    obtain ⟨made, appended, _⟩ := progress.calls
    simp only [acceptDecided, decidedAll, if_true, succeeds.accept]
    exact ⟨.acceptVertex vertex.id true :: made, congrArg (List.cons _) appended,
      List.mem_cons_self⟩

/-- A sweep without errors calls `Accept` on every acceptable frontier vertex. -/
theorem sweep_calls (replies : SweepReplies ID) (succeeds : replies.Succeeds)
    (e : ParallelEngine ID) (vertexID : ID) (inFrontier : vertexID ∈ e.frontier)
    (vertex : Vertex ID) (found : e.vertices.lookup vertexID = some vertex)
    (acceptable : Acceptable e vertex) :
    CalledSince e (.acceptVertex vertex.id true) (sweep replies e).1 := by
  refine forRange_establishes (Progress (fun _ => True) (fun _ => True) e)
    (fun visited state => visited = vertexID → CalledSince e (.acceptVertex vertex.id true) state)
    ?_ ?_ ?_ (Progress.refl e) (sweep_completes replies succeeds e) vertexID
    ((mem_getFrontier replies.order e vertexID).mpr inFrontier) rfl
  · intro index visited _ state before
    exact before.trans ((decideVertex_progress (replies.vertex index) visited state).mono
      (fun _ _ => trivial) (fun _ _ => trivial))
  · rintro index visited _ state before _ rfl
    have still : Acceptable state vertex := by
      intro tx member
      rcases acceptable tx member with already | ⟨clear, unrejected⟩
      · exact Or.inl (before.kept already)
      · refine Or.inr ⟨(before.registry.clear tx).mpr clear, ?_⟩
        rw [before.registry.txsRejected]
        exact unrejected
    obtain ⟨made, appended, member⟩ := decideVertex_calls (replies.vertex index) (succeeds index)
      visited state vertex (by rw [before.registry.vertices, found]) still
    obtain ⟨earlier, calls, _⟩ := before.calls
    refine ⟨made ++ earlier, ?_, List.mem_append_left earlier member⟩
    rw [appended, calls, List.append_assoc]
  · intro index visited _ other _ state _ already same
    exact (already same).progress (decideVertex_progress (replies.vertex index) visited state)

end AvalancheParallel.Consensus
