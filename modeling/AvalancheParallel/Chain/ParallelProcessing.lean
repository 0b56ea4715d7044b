import AvalancheParallel.Chain.ChainLaws
import AvalancheParallel.Foundation.WorkerCrew

/-!
# A call of `ProcessPendingBlocks` with its workers

One call of `ProcessPendingBlocks`, without other operations in between, at the
granularity of single writes: a worker calls `Verify`, writes the status of its
block and of each of its transactions and delivers a result; the caller launches the
workers behind a semaphore with `maxWorkers` slots and then collects the results
while workers are still running. However these steps interleave, which blocks and
transactions are written and which results are delivered is the same, and none of
the writes depends on another one.
-/

namespace AvalancheParallel.Chain

open AvalancheParallel.RangeLoop AvalancheParallel.Choices AvalancheParallel.Ids
open AvalancheParallel.WorkerCrew

/-- What a worker does, one write at a time. -/
inductive WorkerOp where
  | verify (block : Block)
  | accept (block : Block)
  | acceptTx (tx : Transaction)
  | deliver (id : ID) (error : Option TransactionError)
deriving DecidableEq

/-- The worker of a block: `Verify`, then `Accept` if it has passed, then the delivery. -/
def worker (block : Block) : List WorkerOp :=
  match block.verify with
  | some error => [.verify block, .deliver block.id (some error)]
  | none => .verify block :: .accept block ::
      (block.transactions.map .acceptTx ++ [.deliver block.id none])

/-- A running call: the chain, the workers and the results not collected yet. -/
structure Processing where
  bc : Blockchain
  crew : Crew WorkerOp
  results : List (ID × Option TransactionError)

/-- The effect of an operation. `Verify` changes nothing. -/
def WorkerOp.perform (op : WorkerOp) (call : Processing) : Processing :=
  match op with
  | .verify _ => call
  | .accept block =>
    { call with bc := { call.bc with
        blockStatus := Function.update call.bc.blockStatus block .accepted } }
  | .acceptTx tx =>
    { call with bc := { call.bc with
        txStatus := Function.update call.bc.txStatus tx .accepted } }
  | .deliver id error => { call with results := call.results ++ [(id, error)] }

/-- The call launches a worker, a worker makes a step, or the call collects a result. -/
inductive ProcessAction where
  | workers (action : WorkerCrew.Action)
  | collect

/-- The caller takes the next result once it has launched all workers. It stops at a nil
dereference. -/
def Processing.collect (call : Processing) : Processing :=
  match call.crew.waiting, call.results with
  | [], result :: rest =>
    match collectResult result call.bc with
    | (bc, none) => { call with bc := bc, results := rest }
    | (_, some _) => call
  | _, _ => call

def Processing.step (maxWorkers : ℕ) (call : Processing) : ProcessAction → Processing
  | .workers action =>
    let advanced := { call with crew := call.crew.step maxWorkers action }
    match call.crew.operation? action with
    | none => advanced
    | some op => op.perform advanced
  | .collect => call.collect

/-- The beginning of a call: the pending blocks in the order of map iteration. -/
def startProcessing (order : IterationOrder ID) (bc : Blockchain) : Processing :=
  ⟨bc, .start ((order.values bc.pendingBlocks).map worker), []⟩

/-- The call after a schedule of its steps. -/
abbrev processPendingBlocks (maxWorkers : ℕ) (order : IterationOrder ID) (bc : Blockchain)
    (schedule : List ProcessAction) : Processing :=
  Runs.run (Processing.step maxWorkers) (startProcessing order bc) schedule

/-- All workers have finished and the channel is drained: the call returns. -/
def Processing.Returns (call : Processing) : Prop := call.crew.Done ∧ call.results = []

instance (call : Processing) : Decidable call.Returns :=
  inferInstanceAs (Decidable ((call.crew.waiting = [] ∧ call.crew.running = []) ∧ _))

/-- The fields a call writes. -/
structure SameOutcome (first second : Blockchain) : Prop where
  acceptedBlocks : first.acceptedBlocks = second.acceptedBlocks
  pendingBlocks : first.pendingBlocks = second.pendingBlocks
  blockStatus : first.blockStatus = second.blockStatus
  txStatus : first.txStatus = second.txStatus

/-- The result an operation delivers. -/
def WorkerOp.result? : WorkerOp → Option (ID × Option TransactionError)
  | .deliver id error => some (id, error)
  | _ => none

/-- The chain shows which operations have been executed and which of the results were
collected. -/
structure Reflects (bc : Blockchain) (call : Processing)
    (collected : List (ID × Option TransactionError)) : Prop where
  delivered : call.crew.executed.filterMap WorkerOp.result? = collected ++ call.results
  blocks : call.bc.blocks = bc.blocks
  acceptedBlocks : ∀ id, call.bc.acceptedBlocks.lookup id =
    if (id, none) ∈ collected then bc.blocks.lookup id else bc.acceptedBlocks.lookup id
  pendingBlocks : ∀ id, call.bc.pendingBlocks.lookup id =
    if (id, none) ∈ collected then none else bc.pendingBlocks.lookup id
  blockStatus : ∀ block, call.bc.blockStatus block =
    if WorkerOp.accept block ∈ call.crew.executed then .accepted else bc.blockStatus block
  txStatus : ∀ tx, call.bc.txStatus tx =
    if WorkerOp.acceptTx tx ∈ call.crew.executed then .accepted else bc.txStatus tx

/-- At the start no result has been collected. -/
theorem startProcessing_reflects (order : IterationOrder ID) (bc : Blockchain) :
    Reflects bc (startProcessing order bc) [] := by
  constructor <;> simp [startProcessing, Crew.start]

/-- An executed operation leaves its mark and nothing else. -/
theorem perform_reflects {bc : Blockchain} {call : Processing}
    {collected : List (ID × Option TransactionError)} (reflects : Reflects bc call collected)
    (op : WorkerOp) {crew : Crew WorkerOp} (executed : crew.executed = call.crew.executed ++ [op]) :
    Reflects bc (op.perform { call with crew := crew }) collected := by
  obtain ⟨delivered, blocks, acceptedBlocks, pendingBlocks, blockStatus, txStatus⟩ := reflects
  cases op with
  | verify block => constructor <;> simp_all [WorkerOp.perform, WorkerOp.result?]
  | accept block =>
    constructor
    case blockStatus =>
      intro other
      by_cases same : other = block
      · simp [WorkerOp.perform, same, executed]
      · simp [WorkerOp.perform, same, executed, blockStatus]
    all_goals simp_all [WorkerOp.perform, WorkerOp.result?]
  | acceptTx tx =>
    constructor
    case txStatus =>
      intro other
      by_cases same : other = tx
      · simp [WorkerOp.perform, same, executed]
      · simp [WorkerOp.perform, same, executed, txStatus]
    all_goals simp_all [WorkerOp.perform, WorkerOp.result?]
  | deliver id error => constructor <;> simp_all [WorkerOp.perform, WorkerOp.result?]

/-- Collecting the next result moves it to the collected ones. -/
theorem collectResult_reflects {bc : Blockchain} {call : Processing}
    {collected rest : List (ID × Option TransactionError)}
    {result : ID × Option TransactionError} (reflects : Reflects bc call collected)
    (next : call.results = result :: rest) (stored : result.2 = none → result.1 ∈ bc.blocks) :
    (collectResult result call.bc).2 = none ∧
      Reflects bc { call with bc := (collectResult result call.bc).1, results := rest }
        (collected ++ [result]) := by
  obtain ⟨delivered, blocks, acceptedBlocks, pendingBlocks, blockStatus, txStatus⟩ := reflects
  obtain ⟨id, error⟩ := result
  cases error with
  | some error =>
    refine ⟨rfl, ?_⟩
    constructor <;> simp_all [collectResult]
  | none =>
    obtain ⟨block, found⟩ := Finmap.mem_iff.mp (stored rfl)
    have lookup : call.bc.blocks.lookup id = some block := by rw [blocks, found]
    simp only [collectResult, lookup]
    refine ⟨trivial, ?_⟩
    constructor
    case acceptedBlocks =>
      intro other
      by_cases same : other = id
      · subst same
        simp [found]
      · simp [Finmap.lookup_insert_of_ne _ same, acceptedBlocks, same]
    case pendingBlocks =>
      intro other
      by_cases same : other = id
      · subst same
        simp
      · simp [Finmap.lookup_erase_ne same, pendingBlocks, same]
    all_goals simp_all

/-- What holds throughout a call: the chain reflects what was executed and collected, and
executed and remaining operations together are those of the pending blocks. -/
structure OnCourse (order : IterationOrder ID) (bc : Blockchain) (call : Processing) : Prop where
  reflects : ∃ collected, Reflects bc call collected
  operations : (call.crew.executed ++ call.crew.remaining).Perm
    ((order.values bc.pendingBlocks).map worker).flatten

/-- A successful result is that of a pending block. -/
theorem deliver_mem_workers {blocks : List Block} {id : ID}
    (delivered : WorkerOp.deliver id none ∈ (blocks.map worker).flatten) :
    ∃ block ∈ blocks, block.id = id := by
  obtain ⟨job, member, inJob⟩ := List.mem_flatten.mp delivered
  obtain ⟨block, inside, rfl⟩ := List.mem_map.mp member
  refine ⟨block, inside, ?_⟩
  unfold worker at inJob
  split at inJob
  · simp at inJob
  · simp only [List.mem_cons, List.mem_append, List.mem_map, reduceCtorEq, and_false,
      exists_false, false_or, List.not_mem_nil, or_false, WorkerOp.deliver.injEq, and_true] at inJob
    exact inJob.symm

/-- A pending block is stored under its ID. -/
theorem pending_id_stored {bc : Blockchain} (keyed : Keyed bc) {order : IterationOrder ID}
    {block : Block} (pending : block ∈ order.values bc.pendingBlocks) : block.id ∈ bc.blocks := by
  obtain ⟨id, found⟩ := (order.mem_values bc.pendingBlocks block).mp pending
  have stored := keyed.pending id block found
  rw [(keyed.blocks id block stored).1]
  exact Finmap.mem_of_lookup_eq_some stored

/-- The blocks of the results that wait to be collected are stored. -/
theorem OnCourse.stored {order : IterationOrder ID} {bc : Blockchain} {call : Processing}
    (keyed : Keyed bc) (course : OnCourse order bc call)
    {result : ID × Option TransactionError} (waiting : result ∈ call.results)
    (success : result.2 = none) : result.1 ∈ bc.blocks := by
  obtain ⟨collected, reflects⟩ := course.reflects
  have delivered : result ∈ call.crew.executed.filterMap WorkerOp.result? := by
    rw [reflects.delivered]
    exact List.mem_append_right _ waiting
  obtain ⟨op, executed, isResult⟩ := List.mem_filterMap.mp delivered
  cases op with
  | deliver id error =>
    obtain rfl := Option.some.inj isResult
    obtain rfl : error = none := success
    have inJobs := course.operations.subset (List.mem_append_left _ executed)
    obtain ⟨block, pending, rfl⟩ := deliver_mem_workers inJobs
    exact pending_id_stored keyed pending
  | verify block => cases isResult
  | accept block => cases isResult
  | acceptTx tx => cases isResult

/-- The operation of a step does not touch the workers. -/
theorem step_crew (maxWorkers : ℕ) (call : Processing) (action : WorkerCrew.Action) :
    (call.step maxWorkers (.workers action)).crew = call.crew.step maxWorkers action := by
  simp only [Processing.step]
  cases call.crew.operation? action with
  | none => rfl
  | some op => cases op <;> rfl

/-- Once all workers are launched, the next result is collected. -/
theorem OnCourse.collect {order : IterationOrder ID} {bc : Blockchain} {call : Processing}
    (keyed : Keyed bc) (course : OnCourse order bc call) {result : ID × Option TransactionError}
    {rest : List (ID × Option TransactionError)} (launched : call.crew.waiting = [])
    (next : call.results = result :: rest) :
    ∃ bc' collected, call.collect = { call with bc := bc', results := rest } ∧
      Reflects bc call.collect collected := by
  obtain ⟨collected, reflects⟩ := course.reflects
  have stored : result.2 = none → result.1 ∈ bc.blocks :=
    course.stored keyed (next ▸ List.mem_cons_self)
  obtain ⟨success, after⟩ := collectResult_reflects reflects next stored
  have taken : call.collect = { call with
      bc := (collectResult result call.bc).1, results := rest } := by
    cases outcome : collectResult result call.bc with
    | mk bc' failure =>
      rw [outcome] at success
      obtain rfl : failure = none := success
      simp only [Processing.collect, launched, next, outcome]
  exact ⟨_, collected ++ [result], taken, taken ▸ after⟩

/-- Every step of the crew or of the collector keeps the call on course. -/
theorem step_onCourse {order : IterationOrder ID} {bc : Blockchain} (keyed : Keyed bc)
    (maxWorkers : ℕ) (call : Processing) (action : ProcessAction)
    (course : OnCourse order bc call) : OnCourse order bc (call.step maxWorkers action) := by
  cases action with
  | workers action =>
    constructor
    · obtain ⟨collected, reflects⟩ := course.reflects
      refine ⟨collected, ?_⟩
      have executed := call.crew.step_executed maxWorkers action
      simp only [Processing.step]
      cases next : call.crew.operation? action with
      | none =>
        rw [next, Option.toList_none, List.append_nil] at executed
        obtain ⟨delivered, blocks, acceptedBlocks, pendingBlocks, blockStatus, txStatus⟩ := reflects
        constructor <;> simp_all
      | some op =>
        rw [next, Option.toList_some] at executed
        exact perform_reflects reflects op executed
    · rw [step_crew]
      exact (call.crew.step_perm maxWorkers action).trans course.operations
  | collect =>
    change OnCourse order bc call.collect
    cases launched : call.crew.waiting with
    | nil =>
      cases next : call.results with
      | nil =>
        have idle : call.collect = call := by
          unfold Processing.collect
          rw [launched, next]
        rw [idle]
        exact course
      | cons result rest =>
        obtain ⟨bc', collected, taken, reflects⟩ := course.collect keyed launched next
        refine ⟨⟨collected, reflects⟩, ?_⟩
        rw [taken]
        exact course.operations
    | cons job others =>
      have idle : call.collect = call := by
        unfold Processing.collect
        rw [launched]
      rw [idle]
      exact course

/-- The call starts on course. -/
theorem startProcessing_onCourse (order : IterationOrder ID) (bc : Blockchain) :
    OnCourse order bc (startProcessing order bc) where
  reflects := ⟨[], startProcessing_reflects order bc⟩
  operations := by simp [startProcessing, Crew.start, Crew.remaining]

/-- The call is on course after every schedule. -/
theorem processing_onCourse {bc : Blockchain} (keyed : Keyed bc) (maxWorkers : ℕ)
    (order : IterationOrder ID) (schedule : List ProcessAction) :
    OnCourse order bc (processPendingBlocks maxWorkers order bc schedule) :=
  Runs.run_invariant (Processing.step maxWorkers) (OnCourse order bc)
    (step_onCourse keyed maxWorkers) (startProcessing order bc) schedule
    (startProcessing_onCourse order bc)

/-- The workers alone run as a crew. -/
theorem run_workers_crew (maxWorkers : ℕ) (call : Processing)
    (actions : List WorkerCrew.Action) :
    (Runs.run (Processing.step maxWorkers) call (actions.map .workers)).crew =
      Runs.run (Crew.step maxWorkers) call.crew actions := by
  induction actions generalizing call with
  | nil => rfl
  | cons action rest inductionHypothesis =>
    rw [List.map_cons, Runs.run_cons, inductionHypothesis, step_crew, Runs.run_cons]

/-- When all workers have finished, collecting drains the channel. -/
theorem exists_collected {order : IterationOrder ID} {bc : Blockchain} (keyed : Keyed bc)
    (maxWorkers : ℕ) {call : Processing} (course : OnCourse order bc call)
    (finished : call.crew.Done) :
    ∃ schedule, (Runs.run (Processing.step maxWorkers) call schedule).Returns := by
  generalize waiting : call.results = results
  induction results generalizing call with
  | nil => exact ⟨[], finished, waiting⟩
  | cons result rest inductionHypothesis =>
    obtain ⟨bc', collected, taken, _⟩ := course.collect keyed finished.1 waiting
    have next : call.step maxWorkers .collect = { call with bc := bc', results := rest } := taken
    have after := step_onCourse keyed maxWorkers call .collect course
    rw [next] at after
    obtain ⟨schedule, returns⟩ := inductionHypothesis after finished rfl
    refine ⟨.collect :: schedule, ?_⟩
    rw [Runs.run_cons, next]
    exact returns

/-- No schedule of a call gets stuck. -/
theorem exists_return {bc : Blockchain} (keyed : Keyed bc) {maxWorkers : ℕ}
    (positive : 1 ≤ maxWorkers) (order : IterationOrder ID) (schedule : List ProcessAction) :
    ∃ rest, (processPendingBlocks maxWorkers order bc (schedule ++ rest)).Returns := by
  obtain ⟨actions, finished⟩ :=
    Crew.exists_done positive (processPendingBlocks maxWorkers order bc schedule).crew
  rw [← run_workers_crew, ← Runs.run_append] at finished
  obtain ⟨collects, returns⟩ := exists_collected keyed maxWorkers
    (processing_onCourse keyed maxWorkers order (schedule ++ actions.map .workers)) finished
  refine ⟨actions.map .workers ++ collects, ?_⟩
  rw [← List.append_assoc]
  unfold processPendingBlocks
  rw [Runs.run_append]
  exact returns

/-- What a call that has returned has done, in terms of the pending blocks only. -/
theorem returned_reflects {bc : Blockchain} (keyed : Keyed bc) {maxWorkers : ℕ}
    {order : IterationOrder ID} {schedule : List ProcessAction}
    (returns : (processPendingBlocks maxWorkers order bc schedule).Returns) :
    ∃ ops : List WorkerOp, ops.Perm ((order.values bc.pendingBlocks).map worker).flatten ∧
      Reflects bc ⟨(processPendingBlocks maxWorkers order bc schedule).bc, ⟨[], [], ops⟩, []⟩
        (ops.filterMap WorkerOp.result?) := by
  have course := processing_onCourse keyed maxWorkers order schedule
  generalize processPendingBlocks maxWorkers order bc schedule = call at returns course
  obtain ⟨bc', ⟨waiting, running, ops⟩, results⟩ := call
  obtain ⟨⟨rfl, rfl⟩, rfl⟩ := returns
  obtain ⟨collected, reflects⟩ := course.reflects
  have operations : ops.Perm ((order.values bc.pendingBlocks).map worker).flatten := by
    simpa [Crew.remaining] using course.operations
  have all : ops.filterMap WorkerOp.result? = collected := by simpa using reflects.delivered
  exact ⟨ops, operations, all ▸ reflects⟩

/-- Calls that have executed the same operations have the same outcome. -/
theorem sameOutcome_of_perm {bc first second : Blockchain} {ops others : List WorkerOp}
    (perm : ops.Perm others)
    (one : Reflects bc ⟨first, ⟨[], [], ops⟩, []⟩ (ops.filterMap WorkerOp.result?))
    (other : Reflects bc ⟨second, ⟨[], [], others⟩, []⟩ (others.filterMap WorkerOp.result?)) :
    SameOutcome first second := by
  have results := perm.filterMap WorkerOp.result?
  constructor
  · apply Finmap.ext_lookup
    intro id
    rw [one.acceptedBlocks id, other.acceptedBlocks id]
    simp only [results.mem_iff]
  · apply Finmap.ext_lookup
    intro id
    rw [one.pendingBlocks id, other.pendingBlocks id]
    simp only [results.mem_iff]
  · funext block
    rw [one.blockStatus block, other.blockStatus block]
    simp only [perm.mem_iff]
  · funext tx
    rw [one.txStatus tx, other.txStatus tx]
    simp only [perm.mem_iff]

/-- From every reachable state, a call of `ProcessPendingBlocks` can always be finished, and
whenever it returns it leaves what a call with one worker leaves. -/
theorem parallel_processing_sequential (sha256 : List UInt8 → ID) (now : ℤ)
    (actions : List Action) (maxWorkers : ℕ) (positive : 1 ≤ maxWorkers)
    (order : IterationOrder ID) :
    let bc := runChain sha256 now actions
    (∀ schedule, ∃ rest, (processPendingBlocks maxWorkers order bc (schedule ++ rest)).Returns) ∧
      ∀ schedule oneOrder oneSchedule,
        (processPendingBlocks maxWorkers order bc schedule).Returns →
        (processPendingBlocks 1 oneOrder bc oneSchedule).Returns →
        SameOutcome (processPendingBlocks maxWorkers order bc schedule).bc
          (processPendingBlocks 1 oneOrder bc oneSchedule).bc := by
  intro bc
  have keyed : Keyed bc := reachable_keyed sha256 now actions
  refine ⟨exists_return keyed positive order, ?_⟩
  intro schedule oneOrder oneSchedule returns oneReturns
  obtain ⟨ops, operations, reflects⟩ := returned_reflects keyed returns
  obtain ⟨oneOps, oneOperations, oneReflects⟩ := returned_reflects keyed oneReturns
  have jobs := ((order.values_perm oneOrder bc.pendingBlocks).map worker).flatten
  exact sameOutcome_of_perm (operations.trans (jobs.trans oneOperations.symm)) reflects oneReflects

/-- Three submitted blocks: two share a transaction, the third has an invalid one. -/
def sharingRun : List Action :=
  [.submitBlock (newBlock positionalHash 1 0 [genesisID] [sampleTx 1, sampleTx 2] 1),
    .submitBlock (newBlock positionalHash 2 0 [genesisID] [sampleTx 1] 2),
    .submitBlock (newBlock positionalHash 3 0 [genesisID] [{ sampleTx 3 with amount := 0 }] 3)]

/-- Workers take turns until all are done, then the results are collected. -/
def turns (slots : List ℕ) : List ProcessAction :=
  (List.replicate 20 (.workers .launch :: slots.map (fun slot => .workers (.work slot)))).flatten ++
    List.replicate 3 .collect

/-- Two workers that take turns leave what one worker leaves. -/
theorem sharing_blocks_sequential :
    let bc := runChain positionalHash 0 sharingRun
    bc.pendingBlocks.keys.card = 3 ∧
      SameOutcome (processPendingBlocks 2 (byValue 32) bc (turns [1, 0])).bc
        (processPendingBlocks 1 (byValue 32) bc (turns [0])).bc := by
  intro bc
  have returns : (processPendingBlocks 2 (byValue 32) bc (turns [1, 0])).Returns := by
    decide +kernel
  have oneReturns : (processPendingBlocks 1 (byValue 32) bc (turns [0])).Returns := by
    decide +kernel
  exact ⟨by decide +kernel, (parallel_processing_sequential positionalHash 0 sharingRun 2
    (by decide) (byValue 32)).2 _ _ _ returns oneReturns⟩

end AvalancheParallel.Chain
