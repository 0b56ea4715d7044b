import AvalancheParallel.Consensus.RegistrationLaws
import AvalancheParallel.Foundation.BubbleSort
import AvalancheParallel.Foundation.WorkerCrew

/-!
# Batches of vertices

`BatchProcessVertices` sorts its vertices by priority and starts one worker per
vertex behind a semaphore. A worker calls `ProcessVertex`, which holds the engine
lock from beginning to end, and then sends the error of the call, if any, to a
channel that has room for all of them.

What a call registers depends on the vertex and on the decided transactions only,
and no call of a batch decides one. The calls act on a `Registry`, the part of the
engine they write, and there they commute. The result of a batch is therefore that
of the calls in list order.
-/

namespace AvalancheParallel.Consensus

open AvalancheParallel.RangeLoop AvalancheParallel.WorkerCrew

variable {ID : Type}

/-- A vertex of a batch with the answers of its methods. -/
structure Submission (ID : Type) where
  vertex : Vertex ID
  replies : ProcessReplies

/-- The comparison of two neighbours in the bubble sort, with their exchange. -/
def compareExchange {α : Type} (priority : α → UInt64) (vertices : List α) (j : ℕ) : List α :=
  if inside : j + 1 < vertices.length then
    if priority vertices[j] < priority vertices[j + 1] then
      (vertices.set j vertices[j + 1]).set (j + 1) vertices[j]
    else vertices
  else vertices

/-- `sortVerticesByPriority`: a bubble sort, highest priority first. -/
def sortVerticesByPriority {α : Type} (priority : α → UInt64) (vertices : List α) : List α :=
  (List.range vertices.length).foldl
    (fun vertices i => (List.range (vertices.length - i - 1)).foldl (compareExchange priority)
      vertices) vertices

/-- What a worker of a batch does. Workers are numbered by their place in the sorted list. -/
inductive BatchOp (ID : Type) where
  | process (index : ℕ) (call : Submission ID)
  | deliver (index : ℕ)

/-- A running batch: the engine, the workers, the errors returned to them and the channel. -/
structure Batch (ID : Type) where
  engine : ParallelEngine ID
  crew : Crew (BatchOp ID)
  returned : List (ℕ × Failure)
  errs : List Failure

/-- The worker of a vertex. -/
def batchWorker (entry : Submission ID × ℕ) : List (BatchOp ID) :=
  [.process entry.2 entry.1, .deliver entry.2]

variable [DecidableEq ID]

/-- The effect of an operation. A worker without an error delivers nothing. -/
def BatchOp.perform (op : BatchOp ID) (batch : Batch ID) : Batch ID :=
  match op with
  | .process index call =>
    match processVertex call.replies call.vertex batch.engine with
    | (engine, none) => { batch with engine := engine }
    | (engine, some failure) =>
      { batch with engine := engine, returned := batch.returned ++ [(index, failure)] }
  | .deliver index =>
    { batch with errs := batch.errs ++
        (batch.returned.filter (fun error => decide (error.1 = index))).map Prod.snd }

def Batch.step (maxWorkers : ℕ) (batch : Batch ID) (action : WorkerCrew.Action) : Batch ID :=
  let advanced := { batch with crew := batch.crew.step maxWorkers action }
  match batch.crew.operation? action with
  | none => advanced
  | some op => op.perform advanced

/-- The beginning of a batch: the vertices are sorted, and no worker has been launched. -/
def startBatch (e : ParallelEngine ID) (calls : List (Submission ID)) : Batch ID where
  engine := e
  crew := .start ((sortVerticesByPriority (fun call => call.vertex.priority) calls).zipIdx.map
    batchWorker)
  returned := []
  errs := []

/-- `BatchProcessVertices` after a schedule of its workers. -/
abbrev batchProcessVertices (maxWorkers : ℕ) (e : ParallelEngine ID)
    (calls : List (Submission ID)) (schedule : List WorkerCrew.Action) : Batch ID :=
  Runs.run (Batch.step maxWorkers) (startBatch e calls) schedule

/-- The first error found in the channel, once the batch is done. -/
def Batch.result (batch : Batch ID) : Option Failure := batch.errs.head?

/-- `ProcessVertex` called one by one, with the errors returned. -/
def processInTurn : List (Submission ID) → ParallelEngine ID →
    ParallelEngine ID × List (Option Failure)
  | [], e => (e, [])
  | call :: rest, e =>
    let first := processVertex call.replies call.vertex e
    let later := processInTurn rest first.1
    (later.1, first.2 :: later.2)

/-- The maps that `ProcessVertex` writes, and whether a call has returned an error. -/
structure Registry (ID : Type) where
  vertices : GoMap ID (Vertex ID)
  edgeMap : GoMap ID (List ID)
  conflicts : GoMap ID (Finset ID)
  failed : Bool

/-- The registry of an engine. -/
def ParallelEngine.registry (e : ParallelEngine ID) (failed : Bool) : Registry ID :=
  ⟨e.vertices, e.edgeMap, e.conflicts, failed⟩

/-- The transactions that registration skips. -/
def ParallelEngine.decided (e : ParallelEngine ID) : Finset ID := e.txsAccepted ∪ e.txsRejected

/-- Enter a transaction in the conflict set of an input. -/
def enroll (conflicts : GoMap ID (Finset ID)) (entry : ID × ID) : GoMap ID (Finset ID) :=
  conflicts.insert entry.1 (insert entry.2 ((conflicts.lookup entry.1).getD ∅))

/-- The inputs and transactions that the registration loop enters, and its error. -/
def enrolled (decided : Finset ID) (inputIDs : ℕ → Bool) :
    ℕ → List (Tx ID) → List (ID × ID) × Option Failure
  | _, [] => ([], none)
  | index, tx :: rest =>
    if tx.id ∈ decided then enrolled decided inputIDs (index + 1) rest
    else if !inputIDs index then ([], some .inputIDs)
    else
      let later := enrolled decided inputIDs (index + 1) rest
      (tx.inputIDs.map (fun inputID => (inputID, tx.id)) ++ later.1, later.2)

/-- What a call on a new vertex enters in the conflict sets, and its error. -/
def Submission.entries (decided : Finset ID) (call : Submission ID) :
    List (ID × ID) × Option Failure :=
  if !call.replies.parents then ([], some .parents)
  else if !call.replies.verify then
    ([], if call.replies.reject then none else some .rejectVertex)
  else if !call.replies.txs then ([], some .txs)
  else enrolled decided call.replies.inputIDs 0 call.vertex.txs

/-- A call as an operation on registries. -/
def Registry.process (decided : Finset ID) (registry : Registry ID) (call : Submission ID) :
    Registry ID :=
  if call.vertex.id ∈ registry.vertices then registry
  else
    { vertices := registry.vertices.insert call.vertex.id call.vertex
      edgeMap := if call.replies.parents then
          registry.edgeMap.insert call.vertex.id call.vertex.parentIDs else registry.edgeMap
      conflicts := (call.entries decided).1.foldl enroll registry.conflicts
      failed := registry.failed || (call.entries decided).2.isSome }

/-- Two entries may be made in either order. -/
theorem enroll_comm (conflicts : GoMap ID (Finset ID)) (first second : ID × ID) :
    enroll (enroll conflicts first) second = enroll (enroll conflicts second) first := by
  obtain ⟨input, tx⟩ := first
  obtain ⟨otherInput, otherTx⟩ := second
  by_cases same : input = otherInput
  · subst same
    simp [enroll, Finmap.insert_insert, Finset.insert_comm]
  · have apart : otherInput ≠ input := fun equal => same equal.symm
    simp only [enroll, Finmap.lookup_insert_of_ne _ same, Finmap.lookup_insert_of_ne _ apart]
    exact Finmap.insert_insert_of_ne _ same

/-- The entries of two transactions may be made in either order. -/
theorem foldl_enroll_comm (conflicts : GoMap ID (Finset ID)) (first second : List (ID × ID)) :
    second.foldl enroll (first.foldl enroll conflicts) =
      first.foldl enroll (second.foldl enroll conflicts) := by
  rw [← List.foldl_append, ← List.foldl_append]
  exact List.perm_append_comm.foldl_eq' (fun x _ y _ z => enroll_comm z x y) conflicts

/-- Calls on vertices that are equal when their IDs are commute. -/
theorem Registry.process_comm (decided : Finset ID) (registry : Registry ID)
    {first second : Submission ID}
    (consistent : first.vertex.id = second.vertex.id → first = second) :
    (registry.process decided first).process decided second =
      (registry.process decided second).process decided first := by
  by_cases same : first.vertex.id = second.vertex.id
  · rw [consistent same]
  · have apart : second.vertex.id ≠ first.vertex.id := fun equal => same equal.symm
    by_cases firstKnown : first.vertex.id ∈ registry.vertices
    · by_cases secondKnown : second.vertex.id ∈ registry.vertices
      · simp [Registry.process, firstKnown, secondKnown]
      · simp [Registry.process, firstKnown, secondKnown, Finmap.mem_insert]
    · by_cases secondKnown : second.vertex.id ∈ registry.vertices
      · simp [Registry.process, firstKnown, secondKnown, Finmap.mem_insert]
      · simp only [Registry.process, firstKnown, secondKnown, Finmap.mem_insert, same, apart,
          or_self, if_false, Registry.mk.injEq]
        refine ⟨Finmap.insert_insert_of_ne _ same, ?_, foldl_enroll_comm _ _ _, ?_⟩
        · by_cases firstParents : first.replies.parents
          · by_cases secondParents : second.replies.parents
            · simp only [firstParents, secondParents, if_true]
              exact Finmap.insert_insert_of_ne _ same
            · simp [firstParents, secondParents]
          · simp [firstParents]
        · rw [Bool.or_assoc, Bool.or_comm (first.entries decided).2.isSome, ← Bool.or_assoc]

/-- The registration loop enters its entries one by one. -/
theorem registerLoop_enrolled (replies : ProcessReplies) (txs : List (Tx ID)) (index : ℕ)
    (e : ParallelEngine ID) :
    forRangeFrom (registerTx replies) index txs e =
      ({ e with conflicts :=
          (enrolled e.decided replies.inputIDs index txs).1.foldl enroll e.conflicts },
        (enrolled e.decided replies.inputIDs index txs).2) := by
  induction txs generalizing index e with
  | nil => rfl
  | cons tx rest inductionHypothesis =>
    have inputs : ∀ (inputIDs : List ID) (e : ParallelEngine ID),
        inputIDs.foldl (addConflict tx.id) e = { e with conflicts :=
          (inputIDs.map (fun inputID => (inputID, tx.id))).foldl enroll e.conflicts } := by
      intro inputIDs
      induction inputIDs with
      | nil => exact fun _ => rfl
      | cons inputID others later => exact fun e => later (addConflict tx.id e inputID)
    by_cases decided : tx.id ∈ e.decided
    · have skipped : registerTx replies index tx e = (e, none) := by
        rcases Finset.mem_union.mp decided with accepted | rejected
        · simp [registerTx, accepted]
        · simp [registerTx, rejected]
      simp only [forRangeFrom, skipped, enrolled, decided, if_true]
      exact inductionHypothesis (index + 1) e
    · have undecided : tx.id ∉ e.txsAccepted ∧ tx.id ∉ e.txsRejected := by
        simpa [ParallelEngine.decided] using decided
      by_cases answered : replies.inputIDs index = true
      · have entered : registerTx replies index tx e =
            (tx.inputIDs.foldl (addConflict tx.id) e, none) := by
          simp [registerTx, undecided, answered]
        simp only [forRangeFrom, entered, enrolled, decided, answered, if_false, Bool.not_true,
          Bool.false_eq_true, List.foldl_append]
        rw [inputs, inductionHypothesis]
        rfl
      · simp [forRangeFrom, registerTx, enrolled, decided, undecided, answered]

/-- A call acts on the registry of the engine and decides nothing. -/
theorem processVertex_registry (call : Submission ID) (e : ParallelEngine ID) (failed : Bool) :
    (processVertex call.replies call.vertex e).1.registry
        (failed || (processVertex call.replies call.vertex e).2.isSome) =
      (e.registry failed).process e.decided call ∧
    (processVertex call.replies call.vertex e).1.decided = e.decided := by
  by_cases known : call.vertex.id ∈ e.vertices
  · rw [processVertex_known call.replies call.vertex e known]
    simp [Registry.process, ParallelEngine.registry, known]
  · simp only [processVertex, known, if_false, Registry.process, ParallelEngine.registry,
      Submission.entries]
    by_cases parents : call.replies.parents
    · by_cases verify : call.replies.verify
      · by_cases txs : call.replies.txs
        · simp only [parents, verify, txs, Bool.not_true, Bool.false_eq_true, if_false, if_true,
            forRange, registerLoop_enrolled]
          exact ⟨rfl, rfl⟩
        · simp only [parents, verify, txs, Bool.not_true, Bool.not_false, Bool.false_eq_true,
            if_false, if_true]
          exact ⟨rfl, rfl⟩
      · simp only [parents, verify, Bool.not_true, Bool.not_false, Bool.false_eq_true,
          if_false, if_true]
        exact ⟨rfl, rfl⟩
    · simp only [parents, Bool.not_false, Bool.false_eq_true, if_false, if_true]
      exact ⟨rfl, rfl⟩

/-- Calls one by one act on the registry one by one. -/
theorem processInTurn_registry (calls : List (Submission ID)) (e : ParallelEngine ID)
    (failed : Bool) :
    (processInTurn calls e).1.registry (failed || (processInTurn calls e).2.any Option.isSome) =
      calls.foldl (Registry.process e.decided) (e.registry failed) := by
  induction calls generalizing e failed with
  | nil => simp [processInTurn]
  | cons call rest inductionHypothesis =>
    obtain ⟨registered, decided⟩ := processVertex_registry call e failed
    rw [List.foldl_cons, ← registered, ← decided, ← inductionHypothesis]
    simp [processInTurn, Bool.or_assoc]

section Priorities

variable {α : Type} (priority : α → UInt64)

/-- The comparison of the sort. -/
def lowerPriority (first second : α) : Bool := decide (priority first < priority second)

/-- Having a lower priority is a strict weak order. -/
theorem lowerPriority_order : SliceSort.StrictWeakOrder (lowerPriority priority) where
  asymmetric first second below := by
    unfold lowerPriority at *
    rw [decide_eq_true_eq] at below
    exact decide_eq_false (UInt64.lt_asymm below)
  between first second third below := by
    unfold lowerPriority at *
    rw [decide_eq_true_eq] at *
    rw [decide_eq_true_eq]
    by_contra outside
    obtain ⟨notFirst, notSecond⟩ := not_or.mp outside
    exact UInt64.not_lt.mpr
      (UInt64.le_trans (UInt64.not_lt.mp notSecond) (UInt64.not_lt.mp notFirst)) below

/-- The body of the inner loop is an exchange of neighbours. -/
theorem compareExchange_eq_exchangeNext :
    compareExchange priority = BubbleSort.exchangeNext (lowerPriority priority) := by
  funext vertices j
  unfold compareExchange BubbleSort.exchangeNext
  split
  · rename_i inside
    rw [List.getElem?_eq_getElem (by omega), List.getElem?_eq_getElem inside]
    simp [lowerPriority]
  · rename_i outside
    rw [List.getElem?_eq_none (by omega : vertices.length ≤ j + 1)]
    split <;> simp_all

/-- The two loops are a bubble sort. -/
theorem sortVerticesByPriority_eq_bubbleSort (vertices : List α) :
    sortVerticesByPriority priority vertices =
      BubbleSort.bubbleSort (lowerPriority priority) vertices := by
  unfold sortVerticesByPriority
  rw [compareExchange_eq_exchangeNext]
  rfl

/-- Sorting exchanges neighbours only. -/
theorem sortVerticesByPriority_perm (vertices : List α) :
    (sortVerticesByPriority priority vertices).Perm vertices := by
  rw [sortVerticesByPriority_eq_bubbleSort]
  exact (BubbleSort.bubbleSort_law _ vertices).1

/-- The sort rearranges the vertices, puts none before one of higher priority, and keeps the
order of those of the same priority. -/
theorem sortVerticesByPriority_stable_sort (vertices : List α) :
    (sortVerticesByPriority priority vertices).Perm vertices ∧
    (sortVerticesByPriority priority vertices).Pairwise
      (fun earlier later => priority later ≤ priority earlier) ∧
    ∀ level, (sortVerticesByPriority priority vertices).filter
        (fun vertex => priority vertex = level) =
      vertices.filter (fun vertex => priority vertex = level) := by
  obtain ⟨rearranged, stable, sorted⟩ :=
    BubbleSort.bubbleSort_law (lowerPriority priority) vertices
  rw [sortVerticesByPriority_eq_bubbleSort]
  refine ⟨rearranged, (sorted (lowerPriority_order priority)).imp ?_, ?_⟩
  · intro earlier later ordered
    exact UInt64.not_lt.mp (of_decide_eq_false ordered)
  · intro level
    refine stable _ ?_
    intro first second inFirst inSecond
    rw [decide_eq_true_eq] at inFirst inSecond
    unfold lowerPriority
    rw [inFirst, inSecond]
    exact decide_eq_false (UInt64.lt_irrefl level)

end Priorities

/-- The vertex an operation processes. -/
def BatchOp.call? : BatchOp ID → Option (Submission ID)
  | .process _ call => some call
  | .deliver _ => none

/-- What holds throughout a batch: the registry is that of the calls made so far, every error
is in the channel or still to be delivered, and what workers have left to do is an end of
their job. -/
structure Batch.OnCourse (e : ParallelEngine ID) (calls : List (Submission ID))
    (batch : Batch ID) : Prop where
  decided : batch.engine.decided = e.decided
  registry : batch.engine.registry (!batch.returned.isEmpty) =
    (batch.crew.executed.filterMap BatchOp.call?).foldl (Registry.process e.decided)
      (e.registry false)
  sent : batch.errs ≠ [] → batch.returned ≠ []
  pending : ∀ error ∈ batch.returned, error.2 ∈ batch.errs ∨
    .deliver error.1 ∈ batch.crew.remaining
  jobs : ∀ job ∈ batch.crew.running ++ batch.crew.waiting, ∃ entry, job <:+ batchWorker entry
  operations : (batch.crew.executed ++ batch.crew.remaining).Perm
    (startBatch e calls).crew.remaining

/-- The batch starts on course. -/
theorem startBatch_onCourse (e : ParallelEngine ID) (calls : List (Submission ID)) :
    (startBatch e calls).OnCourse e calls where
  decided := rfl
  registry := rfl
  sent := fun sent => absurd rfl sent
  pending := fun error returned => by cases returned
  jobs := by
    intro job member
    obtain ⟨entry, _, rfl⟩ := List.mem_map.mp (show job ∈ List.map _ _ from member)
    exact ⟨entry, List.suffix_refl _⟩
  operations := List.Perm.refl _

/-- The operations of a worker leave the crew. -/
theorem perform_crew (op : BatchOp ID) (batch : Batch ID) :
    (op.perform batch).crew = batch.crew := by
  cases op with
  | process index call =>
    simp only [BatchOp.perform]
    split <;> rfl
  | deliver index => rfl

/-- The crew moves by itself. -/
theorem batch_step_crew (maxWorkers : ℕ) (batch : Batch ID) (action : WorkerCrew.Action) :
    (batch.step maxWorkers action).crew = batch.crew.step maxWorkers action := by
  unfold Batch.step
  cases batch.crew.operation? action with
  | none => rfl
  | some op => exact perform_crew op _

/-- The registry after an operation. -/
theorem perform_registry {e : ParallelEngine ID} {calls : List (Submission ID)} {batch : Batch ID}
    (course : batch.OnCourse e calls) (op : BatchOp ID) {crew : Crew (BatchOp ID)}
    (executed : crew.executed = batch.crew.executed ++ [op]) :
    let after := op.perform { batch with crew := crew }
    after.engine.decided = e.decided ∧
      after.engine.registry (!after.returned.isEmpty) =
        (crew.executed.filterMap BatchOp.call?).foldl (Registry.process e.decided)
          (e.registry false) := by
  rw [executed, List.filterMap_append, List.foldl_append, ← course.registry]
  cases op with
  | deliver index => exact ⟨course.decided, rfl⟩
  | process index call =>
    obtain ⟨registered, decided⟩ :=
      processVertex_registry call batch.engine (!batch.returned.isEmpty)
    rw [course.decided] at registered decided
    simp only [BatchOp.perform]
    cases outcome : processVertex call.replies call.vertex batch.engine with
    | mk engine failure =>
      rw [outcome] at registered decided
      cases failure with
      | none => exact ⟨decided, by simpa [BatchOp.call?] using registered⟩
      | some failure =>
        have nonempty : (batch.returned ++ [(index, failure)]).isEmpty = false := by simp
        refine ⟨decided, ?_⟩
        simpa [BatchOp.call?, nonempty] using registered

/-- The errors after an operation: returned by its call, or sent to the channel. -/
theorem perform_errors {e : ParallelEngine ID} {calls : List (Submission ID)} {batch : Batch ID}
    (course : batch.OnCourse e calls) (op : BatchOp ID) {crew : Crew (BatchOp ID)}
    (left : ∀ other ∈ batch.crew.remaining, op = other ∨ other ∈ crew.remaining)
    (next : ∀ index call, op = .process index call → .deliver index ∈ crew.remaining) :
    let after := op.perform { batch with crew := crew }
    (after.errs ≠ [] → after.returned ≠ []) ∧
      ∀ error ∈ after.returned, error.2 ∈ after.errs ∨ .deliver error.1 ∈ crew.remaining := by
  cases op with
  | process index call =>
    have kept : ∀ error ∈ batch.returned, error.2 ∈ batch.errs ∨
        .deliver error.1 ∈ crew.remaining := by
      intro error returned
      rcases course.pending error returned with sent | waiting
      · exact Or.inl sent
      · exact Or.inr ((left _ waiting).resolve_left (by simp))
    simp only [BatchOp.perform]
    split
    · exact ⟨course.sent, kept⟩
    · refine ⟨fun _ => by simp, ?_⟩
      intro error returned
      rcases List.mem_append.mp returned with earlier | now
      · exact kept error earlier
      · obtain rfl := List.mem_singleton.mp now
        exact Or.inr (next index call rfl)
  | deliver index =>
    simp only [BatchOp.perform]
    constructor
    · intro sent none
      apply sent
      simp [none, not_imp_not.mp course.sent none]
    · intro error returned
      rcases course.pending error returned with sent | waiting
      · exact Or.inl (List.mem_append_left _ sent)
      · rcases left _ waiting with same | later
        · refine Or.inl (List.mem_append_right _ (List.mem_map.mpr ⟨error, ?_, rfl⟩))
          have here : index = error.1 := by simpa using same
          exact List.mem_filter.mpr ⟨returned, by simp [here]⟩
        · exact Or.inr later

/-- Every step keeps the batch on course. -/
theorem batch_step_onCourse {e : ParallelEngine ID} {calls : List (Submission ID)}
    (maxWorkers : ℕ) (batch : Batch ID) (action : WorkerCrew.Action)
    (course : batch.OnCourse e calls) : (batch.step maxWorkers action).OnCourse e calls := by
  have executed := batch.crew.step_executed maxWorkers action
  have jobs := Crew.step_jobs (fun job => ∃ entry, job <:+ batchWorker entry) maxWorkers action
    (fun operation rest ⟨entry, ending⟩ =>
      ⟨entry, (List.suffix_cons operation rest).trans ending⟩) course.jobs
  have operations := (batch.crew.step_perm maxWorkers action).trans course.operations
  have left : ∀ other ∈ batch.crew.remaining, batch.crew.operation? action = some other ∨
      other ∈ (batch.crew.step maxWorkers action).remaining :=
    fun other waiting => Crew.mem_remaining_step maxWorkers action waiting
  rw [← batch_step_crew] at jobs operations
  cases next : batch.crew.operation? action with
  | none =>
    have idle : batch.step maxWorkers action =
        { batch with crew := batch.crew.step maxWorkers action } := by
      simp only [Batch.step, next]
    rw [next, Option.toList_none, List.append_nil] at executed
    rw [idle] at jobs operations ⊢
    refine ⟨course.decided, ?_, course.sent, ?_, jobs, operations⟩
    · exact executed ▸ course.registry
    · intro error returned
      exact (course.pending error returned).imp_right
        (fun waiting => (left _ waiting).resolve_left (by simp [next]))
  | some op =>
    have performed : batch.step maxWorkers action =
        op.perform { batch with crew := batch.crew.step maxWorkers action } := by
      simp only [Batch.step, next]
    rw [next, Option.toList_some] at executed
    obtain ⟨decided, registry⟩ := perform_registry course op executed
    -- A worker that has called `ProcessVertex` has only its delivery left.
    have delivery : ∀ index call, op = .process index call →
        .deliver index ∈ (batch.crew.step maxWorkers action).remaining := by
      rintro index call rfl
      obtain ⟨rest, job, continued⟩ := Crew.operation?_job maxWorkers next
      obtain ⟨entry, front, ending⟩ := course.jobs _ (List.mem_append_left _ job)
      have shape : rest = [.deliver index] := by
        cases front with
        | nil =>
          obtain ⟨⟨rfl, rfl⟩, rfl⟩ : (index = entry.2 ∧ call = entry.1) ∧
              rest = [.deliver entry.2] := by simpa [batchWorker] using ending
          rfl
        | cons first others => cases others <;> simp [batchWorker] at ending
      exact List.mem_append_left _ (List.mem_flatten.mpr ⟨rest, continued, by simp [shape]⟩)
    obtain ⟨sent, pending⟩ := perform_errors course op
      (fun other waiting => by simpa [next] using left other waiting) delivery
    rw [performed] at jobs operations ⊢
    have crew := perform_crew op { batch with crew := batch.crew.step maxWorkers action }
    refine ⟨decided, ?_, sent, ?_, jobs, operations⟩
    · rw [crew]
      exact registry
    · rw [crew]
      exact pending

/-- The batch is on course after every schedule. -/
theorem batch_onCourse (maxWorkers : ℕ) (e : ParallelEngine ID) (calls : List (Submission ID))
    (schedule : List WorkerCrew.Action) :
    (batchProcessVertices maxWorkers e calls schedule).OnCourse e calls :=
  Runs.run_invariant (Batch.step maxWorkers) (fun batch => batch.OnCourse e calls)
    (batch_step_onCourse maxWorkers) (startBatch e calls) schedule (startBatch_onCourse e calls)

/-- The crew of a batch runs as a crew. -/
theorem run_batch_crew (maxWorkers : ℕ) (batch : Batch ID) (schedule : List WorkerCrew.Action) :
    (Runs.run (Batch.step maxWorkers) batch schedule).crew =
      Runs.run (Crew.step maxWorkers) batch.crew schedule := by
  induction schedule generalizing batch with
  | nil => rfl
  | cons action rest inductionHypothesis =>
    rw [Runs.run_cons, inductionHypothesis, batch_step_crew, Runs.run_cons]

omit [DecidableEq ID] in
/-- The calls made by the workers are the calls of the list. -/
theorem batch_calls (e : ParallelEngine ID) (calls : List (Submission ID)) :
    ((startBatch e calls).crew.remaining.filterMap BatchOp.call?).Perm calls := by
  have sorted : ∀ entries : List (Submission ID × ℕ),
      (entries.map batchWorker).flatten.filterMap BatchOp.call? = entries.map Prod.fst := by
    intro entries
    induction entries with
    | nil => rfl
    | cons entry rest inductionHypothesis =>
      rw [List.map_cons, List.flatten_cons, List.filterMap_append, inductionHypothesis]
      rfl
  simp only [startBatch, Crew.start, Crew.remaining, List.flatten_nil, List.nil_append, sorted,
    List.zipIdx_map_fst]
  exact sortVerticesByPriority_perm _ calls

/-- When all workers have finished, the registry is that of the calls in list order. -/
theorem batch_done_registry {maxWorkers : ℕ} {e : ParallelEngine ID} {calls : List (Submission ID)}
    (consistent : ∀ call ∈ calls, ∀ other ∈ calls, call.vertex.id = other.vertex.id → call = other)
    {schedule : List WorkerCrew.Action}
    (done : (batchProcessVertices maxWorkers e calls schedule).crew.Done) :
    let batch := batchProcessVertices maxWorkers e calls schedule
    batch.engine.registry (!batch.returned.isEmpty) =
      (processInTurn calls e).1.registry ((processInTurn calls e).2.any Option.isSome) := by
  intro batch
  have course := batch_onCourse maxWorkers e calls schedule
  have all : batch.crew.executed.Perm (startBatch e calls).crew.remaining := by
    simpa [Crew.remaining, done.1, done.2] using course.operations
  have perm := (all.filterMap BatchOp.call?).trans (batch_calls e calls)
  have inTurn := processInTurn_registry calls e false
  rw [Bool.false_or] at inTurn
  rw [course.registry, inTurn]
  refine perm.foldl_eq' ?_ _
  intro call member other alsoMember registry
  exact registry.process_comm e.decided
    (consistent call (perm.subset member) other (perm.subset alsoMember))

/-- A batch can always be finished, and whenever its workers have finished, the maps and the
presence of an error are those of `ProcessVertex` called in list order. -/
theorem batch_processing_sequential (e : ParallelEngine ID) (maxWorkers : ℕ)
    (positive : 1 ≤ maxWorkers) (calls : List (Submission ID))
    (consistent :
      ∀ call ∈ calls, ∀ other ∈ calls, call.vertex.id = other.vertex.id → call = other) :
    (∀ schedule, ∃ rest, (batchProcessVertices maxWorkers e calls (schedule ++ rest)).crew.Done) ∧
      ∀ schedule, (batchProcessVertices maxWorkers e calls schedule).crew.Done →
        let batch := batchProcessVertices maxWorkers e calls schedule
        let sequential := processInTurn calls e
        batch.engine.vertices = sequential.1.vertices ∧
          batch.engine.edgeMap = sequential.1.edgeMap ∧
          batch.engine.conflicts = sequential.1.conflicts ∧
          (batch.result = none ↔ ∀ error ∈ sequential.2, error = none) := by
  constructor
  · intro schedule
    obtain ⟨rest, done⟩ := Crew.exists_done positive
      (batchProcessVertices maxWorkers e calls schedule).crew
    refine ⟨rest, ?_⟩
    unfold batchProcessVertices
    rw [Runs.run_append, run_batch_crew]
    exact done
  · intro schedule done batch sequential
    have registry := batch_done_registry consistent done
    have course := batch_onCourse maxWorkers e calls schedule
    have delivered : batch.errs = [] ↔ batch.returned = [] := by
      constructor
      · intro quiet
        apply List.eq_nil_iff_forall_not_mem.mpr
        intro error returned
        have sent := course.pending error returned
        rw [quiet] at sent
        simp [Crew.remaining, done.1, done.2] at sent
      · exact not_imp_not.mp course.sent
    have failed : (!batch.returned.isEmpty) = sequential.2.any Option.isSome :=
      congrArg Registry.failed registry
    refine ⟨congrArg Registry.vertices registry, congrArg Registry.edgeMap registry,
      congrArg Registry.conflicts registry, ?_⟩
    rw [Batch.result, List.head?_eq_none_iff, delivered, ← List.isEmpty_iff]
    constructor
    · intro quiet error member
      rw [quiet, Bool.not_true, eq_comm, List.any_eq_false] at failed
      exact Option.not_isSome_iff_eq_none.mp (failed error member)
    · intro quiet
      have none : sequential.2.any Option.isSome = false := by
        rw [List.any_eq_false]
        intro error member
        simp [quiet error member]
      rw [none] at failed
      simpa using failed

/-- Two transactions for one input, in a vertex that passes and in one whose `Txs` fails; the
first vertex is submitted twice. -/
def contestedCalls : List (Submission ℕ) :=
  [⟨⟨1, [], [⟨10, [100]⟩], 1⟩, .succeed⟩,
    ⟨⟨2, [1], [⟨11, [100]⟩], 5⟩, { ProcessReplies.succeed with txs := false }⟩,
    ⟨⟨1, [], [⟨10, [100]⟩], 1⟩, .succeed⟩]

/-- The batch starts with the second vertex and returns its error. -/
theorem contested_batch_sequential :
    let batch := batchProcessVertices 2 newParallelEngine contestedCalls
      [.launch, .launch, .work 0, .work 1, .work 0, .work 0, .launch, .work 1, .work 0, .work 1,
        .work 0, .work 0]
    batch.result = some .txs ∧
      batch.engine.conflicts = (processInTurn contestedCalls newParallelEngine).1.conflicts := by
  intro batch
  have consistent : ∀ call ∈ contestedCalls, ∀ other ∈ contestedCalls,
      call.vertex.id = other.vertex.id → call = other := by
    simp [contestedCalls]
  have done : batch.crew.Done := by decide +kernel
  refine ⟨by decide +kernel, ?_⟩
  exact ((batch_processing_sequential newParallelEngine 2 (by decide) contestedCalls
    consistent).2 _ done).2.2.1

end AvalancheParallel.Consensus
