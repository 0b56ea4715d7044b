import Mathlib.Logic.Equiv.List
import AvalancheParallel.Foundation.ListUpdate
import AvalancheParallel.Foundation.RangeLoop
import AvalancheParallel.Foundation.Runs

/-!
# The worker pool

`WorkerPool` of `pkg/worker/service.go` while its context is not cancelled and `Stop`
is not called. Submitters send tasks into a buffered channel; goroutines started by
`Start` receive a task, read the set of workers, call `ProcessTask` of one of them and
store the result under the ID of the task. A run interleaves these steps with changes
of the worker set; what `ProcessTask` returns is an argument of the step in which it
returns.

Two paths lose the task that a goroutine has received: without workers the goroutine
goes on to the next task, and a number of workers divisible by 256 becomes the byte
zero, by which the dispatch divides. Such a panic ends the process. On all other paths
tasks are conserved.
-/

namespace AvalancheParallel.Worker

open AvalancheParallel.ListUpdate AvalancheParallel.RangeLoop

/-- `Task`. Strings are their bytes. -/
structure Task where
  id : List UInt8
  payload : List UInt8
  startTime : ℤ
deriving DecidableEq

/-- `Result`; no error is the nil error. -/
structure Result (ε : Type) where
  taskID : List UInt8
  output : List UInt8
  error : Option ε
  startTime : ℤ
  endTime : ℤ

/-- Where a goroutine of the pool is: at the channel, with a task received, in `ProcessTask`
of a worker, or back from it with a result to store. -/
inductive Goroutine (W ε : Type) where
  | idle
  | received (task : Task)
  | processing (task : Task) (worker : W)
  | returned (task : Task) (result : Result ε)

/-- The pool with its goroutines. The last three fields record what has happened: the tasks
submitted, the tasks for which `ProcessTask` was called and the results it returned. -/
structure WorkerPool (W ε : Type) where
  capacity : ℕ
  taskChan : List Task
  workers : GoMap (List UInt8) W
  results : GoMap (List UInt8) (Result ε)
  goroutines : List (Goroutine W ε)
  crashed : Bool
  submitted : List Task
  calls : List Task
  outcomes : List (Task × Result ε)

variable {W ε : Type}

/-- `NewWorkerPool`, before `Start`. -/
def newWorkerPool (capacity : ℕ) : WorkerPool W ε where
  capacity := capacity
  taskChan := []
  workers := ∅
  results := ∅
  goroutines := []
  crashed := false
  submitted := []
  calls := []
  outcomes := []

/-- A step of a submitter, of a caller that changes the workers, or of a goroutine. A send
either enters the buffer or is handed to a goroutine that waits at the empty channel. -/
inductive PoolAction (W ε : Type) where
  | start (numWorkers : ℕ)
  | addWorker (id : List UInt8) (worker : W)
  | removeWorker (id : List UInt8)
  | submitTask (task : Task)
  | handOff (task : Task) (index : ℕ)
  | receive (index : ℕ)
  | dispatch (index : ℕ) (order : IterationOrder (List UInt8))
  | finish (index : ℕ) (result : Result ε) (err : Option ε)
  | store (index : ℕ)

namespace WorkerPool

/-- A panic ends the process with all it has in memory. -/
def crash (pool : WorkerPool W ε) : WorkerPool W ε :=
  { pool with taskChan := [], results := ∅, goroutines := [], crashed := true }

/-- Move one goroutine. -/
def move (index : ℕ) (goroutine : Goroutine W ε) (pool : WorkerPool W ε) : WorkerPool W ε :=
  { pool with goroutines := pool.goroutines.set index goroutine }

/-- A goroutine that moves on leaves the channel. -/
@[simp] theorem move_taskChan (index : ℕ) (goroutine : Goroutine W ε) (pool : WorkerPool W ε) :
    (pool.move index goroutine).taskChan = pool.taskChan := rfl

/-- A goroutine that moves on leaves what was submitted. -/
@[simp] theorem move_submitted (index : ℕ) (goroutine : Goroutine W ε) (pool : WorkerPool W ε) :
    (pool.move index goroutine).submitted = pool.submitted := rfl

/-- A goroutine that moves on leaves the calls. -/
@[simp] theorem move_calls (index : ℕ) (goroutine : Goroutine W ε) (pool : WorkerPool W ε) :
    (pool.move index goroutine).calls = pool.calls := rfl

/-- The worker chosen for a task: `workers[task.ID[0] % byte(len(workers))]`. It is missing
when an index is out of range or the divisor is zero. -/
def choose (task : Task) (workers : List W) : Option W :=
  match task.id with
  | [] => none
  | byte :: _ =>
    if UInt8.ofNat workers.length = 0 then none
    else workers[(byte % UInt8.ofNat workers.length).toNat]?

/-- The dispatch of a received task to one of the workers. -/
def dispatchTask (index : ℕ) (task : Task) (workers : List W) (pool : WorkerPool W ε) :
    WorkerPool W ε :=
  if workers.isEmpty then pool.move index .idle
  else
    match choose task workers with
    | none => pool.crash
    | some worker =>
      { pool.move index (.processing task worker) with calls := pool.calls ++ [task] }

/-- The result that is stored: an error of `ProcessTask` replaces its `Error`. -/
def outcome (result : Result ε) (err : Option ε) : Result ε :=
  match err with
  | none => result
  | some error => { result with error := some error }

/-- One step. A step that is not possible changes nothing. -/
def step (pool : WorkerPool W ε) (action : PoolAction W ε) : WorkerPool W ε :=
  if pool.crashed then pool
  else
    match action with
    | .start numWorkers =>
      { pool with goroutines := pool.goroutines ++ List.replicate numWorkers .idle }
    | .addWorker id worker => { pool with workers := pool.workers.insert id worker }
    | .removeWorker id => { pool with workers := pool.workers.erase id }
    | .submitTask task =>
      if pool.taskChan.length < pool.capacity then
        { pool with taskChan := pool.taskChan ++ [task], submitted := pool.submitted ++ [task] }
      else pool
    | .handOff task index =>
      match pool.taskChan, pool.goroutines[index]? with
      | [], some .idle =>
        { pool.move index (.received task) with submitted := pool.submitted ++ [task] }
      | _, _ => pool
    | .receive index =>
      match pool.taskChan, pool.goroutines[index]? with
      | task :: rest, some .idle => { pool.move index (.received task) with taskChan := rest }
      | _, _ => pool
    | .dispatch index order =>
      match pool.goroutines[index]? with
      | some (.received task) => pool.dispatchTask index task (order.values pool.workers)
      | _ => pool
    | .finish index result err =>
      match pool.goroutines[index]? with
      | some (.processing task _) =>
        { pool.move index (.returned task (outcome result err)) with
          outcomes := pool.outcomes ++ [(task, outcome result err)] }
      | _ => pool
    | .store index =>
      match pool.goroutines[index]? with
      | some (.returned task result) =>
        { pool.move index .idle with results := pool.results.insert task.id result }
      | _ => pool

end WorkerPool

/-- The task a goroutine holds. -/
def Goroutine.task? : Goroutine W ε → Option Task
  | .idle => none
  | .received task | .processing task _ | .returned task _ => some task

/-- The task for which a goroutine has called `ProcessTask`. -/
def Goroutine.called? : Goroutine W ε → Option Task
  | .idle | .received _ => none
  | .processing task _ | .returned task _ => some task

namespace WorkerPool

/-- The tasks the goroutines hold. -/
def held (pool : WorkerPool W ε) : List Task := pool.goroutines.filterMap Goroutine.task?

/-- The tasks in the hands of workers. -/
def inHands (pool : WorkerPool W ε) : List Task := pool.goroutines.filterMap Goroutine.called?

/-- The results contain, under the ID of the task, what `ProcessTask` returned for it. -/
def Recorded (pool : WorkerPool W ε) (task : Task) : Prop :=
  ∃ result, pool.results.lookup task.id = some result ∧ (task, result) ∈ pool.outcomes

/-- Every submitted task is in exactly one place: once in the channel, with exactly one
goroutine, or recorded. No task is processed twice. -/
structure Conserved (pool : WorkerPool W ε) : Prop where
  placed : ∀ task ∈ pool.submitted,
    (pool.taskChan.count task = 1 ∧ task ∉ pool.held ∧ ¬ pool.Recorded task) ∨
    (task ∉ pool.taskChan ∧ pool.held.count task = 1 ∧ ¬ pool.Recorded task) ∨
    (task ∉ pool.taskChan ∧ task ∉ pool.held ∧ pool.Recorded task)
  once : pool.calls.Nodup

/-- The tasks submitted have IDs that are not empty and not in use. -/
def Fresh (pool : WorkerPool W ε) : PoolAction W ε → Prop
  | .submitTask task | .handOff task _ =>
    task.id ≠ [] ∧ ∀ other ∈ pool.submitted, other.id ≠ task.id
  | _ => True

/-- When a goroutine with a task reads the set of workers, their number is not divisible
by 256. -/
def Staffed (pool : WorkerPool W ε) : PoolAction W ε → Prop
  | .dispatch index _ => ∀ task, pool.goroutines[index]? = some (.received task) →
      pool.workers.keys.card % 256 ≠ 0
  | _ => True

/-- The accounts of a pool that has lost nothing: `stored` lists the tasks whose results have
been stored. -/
structure Accounts (pool : WorkerPool W ε) (stored : List Task) : Prop where
  running : pool.crashed = false
  distinct : (pool.submitted.map Task.id).Nodup
  named : ∀ task ∈ pool.submitted, task.id ≠ []
  tasks : pool.submitted.Perm (pool.taskChan ++ (pool.held ++ stored))
  calls : pool.calls.Perm (pool.inHands ++ stored)
  recorded : ∀ task ∈ stored, pool.Recorded task
  results : ∀ id result, pool.results.lookup id = some result → ∃ task ∈ stored, task.id = id
  returned : ∀ task result, Goroutine.returned task result ∈ pool.goroutines →
    (task, result) ∈ pool.outcomes

end WorkerPool

namespace WorkerPool

/-- The new pool has no tasks. -/
theorem newWorkerPool_accounts (capacity : ℕ) :
    (newWorkerPool capacity : WorkerPool W ε).Accounts [] := by
  constructor <;> simp [newWorkerPool, held, inHands]

/-- A task is recorded exactly when it is stored. -/
theorem Accounts.recorded_iff {pool : WorkerPool W ε} {stored : List Task}
    (accounts : pool.Accounts stored) {task : Task} (submitted : task ∈ pool.submitted) :
    pool.Recorded task ↔ task ∈ stored := by
  constructor
  · rintro ⟨result, found, _⟩
    obtain ⟨other, member, same⟩ := accounts.results _ _ found
    have alsoSubmitted : other ∈ pool.submitted :=
      accounts.tasks.symm.subset (by simp [member])
    rwa [← List.inj_on_of_nodup_map accounts.distinct alsoSubmitted submitted same]
  · exact accounts.recorded task

/-- Workers have only tasks that goroutines hold. -/
theorem inHands_sublist (pool : WorkerPool W ε) : pool.inHands.Sublist pool.held := by
  unfold inHands held
  induction pool.goroutines with
  | nil => exact List.Sublist.refl _
  | cons goroutine rest inductionHypothesis =>
    cases goroutine with
    | idle => exact inductionHypothesis
    | received task => exact inductionHypothesis.cons task
    | processing task worker => exact inductionHypothesis.cons_cons task
    | returned task result => exact inductionHypothesis.cons_cons task

/-- Where the accounts are in order, tasks are conserved. -/
theorem Accounts.conserved {pool : WorkerPool W ε} {stored : List Task}
    (accounts : pool.Accounts stored) : pool.Conserved := by
  have distinct : pool.submitted.Nodup := accounts.distinct.of_map
  constructor
  · intro task submitted
    have total : pool.taskChan.count task + (pool.held.count task + stored.count task) = 1 := by
      rw [← List.count_append, ← List.count_append, ← accounts.tasks.count_eq]
      exact List.count_eq_one_of_mem distinct submitted
    rw [accounts.recorded_iff submitted, ← List.count_pos_iff, ← List.count_pos_iff,
      ← List.count_pos_iff]
    omega
  · have parts := accounts.tasks.nodup_iff.mp distinct
    rw [accounts.calls.nodup_iff]
    exact (List.nodup_append'.mp parts).2.1.sublist (pool.inHands_sublist.append_right stored)

/-- After a move of a goroutine, the tasks held. -/
theorem held_move {pool : WorkerPool W ε} {index : ℕ} {old : Goroutine W ε}
    (here : pool.goroutines[index]? = some old) (new : Goroutine W ε) (task : Task) :
    old.task?.toList.count task + (pool.move index new).held.count task =
      new.task?.toList.count task + pool.held.count task := by
  have exchanged := (filterMap_set_perm Goroutine.task? here new).count_eq task
  rw [List.count_append, List.count_append] at exchanged
  exact exchanged

/-- Moving one goroutine on changes what is in hand by its own task. -/
theorem inHands_move {pool : WorkerPool W ε} {index : ℕ} {old : Goroutine W ε}
    (here : pool.goroutines[index]? = some old) (new : Goroutine W ε) (task : Task) :
    old.called?.toList.count task + (pool.move index new).inHands.count task =
      new.called?.toList.count task + pool.inHands.count task := by
  have exchanged := (filterMap_set_perm Goroutine.called? here new).count_eq task
  rw [List.count_append, List.count_append] at exchanged
  exact exchanged

/-- A goroutine that has returned from `ProcessTask` was there before, or is the one moved. -/
theorem returned_move {pool : WorkerPool W ε} {index : ℕ} {new : Goroutine W ε} {task : Task}
    {result : Result ε} (member : .returned task result ∈ (pool.move index new).goroutines) :
    .returned task result ∈ pool.goroutines ∨ .returned task result = new :=
  List.mem_or_eq_of_mem_set member

/-- One more task with an unused ID. -/
theorem Accounts.distinct_concat {pool : WorkerPool W ε} {stored : List Task}
    (accounts : pool.Accounts stored) {task : Task}
    (fresh : task.id ≠ [] ∧ ∀ other ∈ pool.submitted, other.id ≠ task.id) :
    ((pool.submitted ++ [task]).map Task.id).Nodup ∧
      ∀ other ∈ pool.submitted ++ [task], other.id ≠ [] := by
  constructor
  · rw [List.map_append, List.nodup_append']
    refine ⟨accounts.distinct, by simp, ?_⟩
    intro id before now
    obtain ⟨other, member, rfl⟩ := List.mem_map.mp before
    exact fresh.2 other member (by simpa using now)
  · intro other member
    rcases List.mem_append.mp member with before | now
    · exact accounts.named other before
    · rw [List.mem_singleton.mp now]
      exact fresh.1

/-- A task is sent into the buffer. -/
theorem Accounts.submit {pool : WorkerPool W ε} {stored : List Task}
    (accounts : pool.Accounts stored) {task : Task}
    (fresh : task.id ≠ [] ∧ ∀ other ∈ pool.submitted, other.id ≠ task.id) :
    Accounts { pool with
      taskChan := pool.taskChan ++ [task], submitted := pool.submitted ++ [task] } stored := by
  obtain ⟨distinct, named⟩ := accounts.distinct_concat fresh
  refine ⟨accounts.running, distinct, named, ?_, accounts.calls, accounts.recorded,
    accounts.results, accounts.returned⟩
  rw [List.perm_iff_count]
  intro counted
  have before := accounts.tasks.count_eq counted
  simp only [List.count_append, held] at before ⊢
  omega

/-- A step that moves one goroutine keeps the tasks and calls in balance when what it adds to
one place it takes from another. -/
theorem Accounts.balanced {pool : WorkerPool W ε} {stored : List Task}
    (accounts : pool.Accounts stored) (after : WorkerPool W ε) (storedAfter : List Task)
    {index : ℕ} {old new : Goroutine W ε}
    (here : pool.goroutines[index]? = some old)
    (moved : after.goroutines = (pool.move index new).goroutines)
    (tasks : ∀ task, after.submitted.count task + pool.taskChan.count task +
        (old.task?.toList.count task + stored.count task) =
      pool.submitted.count task + after.taskChan.count task +
        (new.task?.toList.count task + storedAfter.count task))
    (calls : ∀ task, after.calls.count task +
        (old.called?.toList.count task + stored.count task) =
      pool.calls.count task + (new.called?.toList.count task + storedAfter.count task)) :
    after.submitted.Perm (after.taskChan ++ (after.held ++ storedAfter)) ∧
      after.calls.Perm (after.inHands ++ storedAfter) := by
  constructor
  · rw [List.perm_iff_count]
    intro task
    have before := accounts.tasks.count_eq task
    have exchanged := held_move here new task
    have balance := tasks task
    simp only [List.count_append, held, moved] at before exchanged balance ⊢
    omega
  · rw [List.perm_iff_count]
    intro task
    have before := accounts.calls.count_eq task
    have exchanged := inHands_move here new task
    have balance := calls task
    simp only [List.count_append, inHands, moved] at before exchanged balance ⊢
    omega

/-- A task passes from the channel or its submitter to an idle goroutine. -/
theorem Accounts.accept {pool : WorkerPool W ε} {stored : List Task}
    (accounts : pool.Accounts stored) {task : Task} {index : ℕ}
    (here : pool.goroutines[index]? = some .idle) {taskChan submitted : List Task}
    (distinct : (submitted.map Task.id).Nodup) (named : ∀ other ∈ submitted, other.id ≠ [])
    (balance : ∀ counted, submitted.count counted + pool.taskChan.count counted =
      pool.submitted.count counted + taskChan.count counted + [task].count counted) :
    Accounts { pool.move index (.received task) with
      taskChan := taskChan, submitted := submitted } stored := by
  obtain ⟨tasks, calls⟩ := accounts.balanced
    { pool.move index (.received task) with taskChan := taskChan, submitted := submitted }
    stored here rfl
    (fun counted => by
      have balanced := balance counted
      simp only [Goroutine.task?, Option.toList_none, Option.toList_some, List.count_nil]
      omega)
    (fun counted => rfl)
  refine ⟨accounts.running, distinct, named, tasks, calls, accounts.recorded, accounts.results, ?_⟩
  intro other result member
  rcases returned_move member with before | now
  · exact accounts.returned other result before
  · cases now

/-- A task in the hands of a goroutine was submitted. -/
theorem Accounts.mem_submitted {pool : WorkerPool W ε} {stored : List Task}
    (accounts : pool.Accounts stored) {task : Task} (held : task ∈ pool.held) :
    task ∈ pool.submitted := accounts.tasks.symm.subset (by simp [held])

/-- A goroutine calls `ProcessTask`. -/
theorem Accounts.call {pool : WorkerPool W ε} {stored : List Task}
    (accounts : pool.Accounts stored) {task : Task} {index : ℕ}
    (here : pool.goroutines[index]? = some (.received task)) (worker : W) :
    Accounts { pool.move index (.processing task worker) with calls := pool.calls ++ [task] }
      stored := by
  obtain ⟨tasks, calls⟩ := accounts.balanced
    { pool.move index (.processing task worker) with calls := pool.calls ++ [task] }
    stored here rfl (fun counted => rfl)
    (fun counted => by
      simp only [List.count_append, Goroutine.called?, Option.toList_none, Option.toList_some,
        List.count_nil]
      omega)
  refine ⟨accounts.running, accounts.distinct, accounts.named, tasks, calls, accounts.recorded,
    accounts.results, ?_⟩
  intro other result member
  rcases returned_move member with before | now
  · exact accounts.returned other result before
  · cases now

/-- `ProcessTask` returns. -/
theorem Accounts.finish {pool : WorkerPool W ε} {stored : List Task}
    (accounts : pool.Accounts stored) {task : Task} {worker : W} {index : ℕ}
    (here : pool.goroutines[index]? = some (.processing task worker)) (result : Result ε) :
    Accounts { pool.move index (.returned task result) with
      outcomes := pool.outcomes ++ [(task, result)] } stored := by
  obtain ⟨tasks, calls⟩ := accounts.balanced
    { pool.move index (.returned task result) with
      outcomes := pool.outcomes ++ [(task, result)] }
    stored here rfl (fun counted => rfl) (fun counted => rfl)
  refine ⟨accounts.running, accounts.distinct, accounts.named, tasks, calls, ?_,
    accounts.results, ?_⟩
  · intro other member
    obtain ⟨earlier, found, outcome⟩ := accounts.recorded other member
    exact ⟨earlier, found, List.mem_append_left _ outcome⟩
  · intro other value member
    rcases returned_move member with before | now
    · exact List.mem_append_left _ (accounts.returned other value before)
    · obtain ⟨rfl, rfl⟩ := Goroutine.returned.inj now
      exact List.mem_append_right _ (List.mem_singleton_self _)

/-- The result is stored. No other task has an entry under the ID of this one. -/
theorem Accounts.store {pool : WorkerPool W ε} {stored : List Task}
    (accounts : pool.Accounts stored) {task : Task} {result : Result ε} {index : ℕ}
    (here : pool.goroutines[index]? = some (.returned task result)) :
    Accounts { pool.move index .idle with results := pool.results.insert task.id result }
      (stored ++ [task]) := by
  obtain ⟨tasks, calls⟩ := accounts.balanced
    { pool.move index .idle with results := pool.results.insert task.id result }
    (stored ++ [task]) here rfl
    (fun counted => by
      simp only [List.count_append, Goroutine.task?, Option.toList_none, Option.toList_some,
        List.count_nil, move_submitted, move_taskChan]
      omega)
    (fun counted => by
      simp only [List.count_append, Goroutine.called?, Option.toList_none, Option.toList_some,
        List.count_nil, move_calls]
      omega)
  have held : task ∈ pool.held :=
    List.mem_filterMap.mpr ⟨_, List.mem_of_getElem? here, rfl⟩
  have submitted := accounts.mem_submitted held
  refine ⟨accounts.running, accounts.distinct, accounts.named, tasks, calls, ?_, ?_, ?_⟩
  · intro other member
    rcases List.mem_append.mp member with before | now
    · have distinct : other.id ≠ task.id := by
        intro same
        have alsoSubmitted : other ∈ pool.submitted :=
          accounts.tasks.symm.subset (by simp [before])
        have equal := List.inj_on_of_nodup_map accounts.distinct alsoSubmitted submitted same
        have parts := accounts.tasks.nodup_iff.mp accounts.distinct.of_map
        have apart := (List.nodup_append'.mp (List.nodup_append'.mp parts).2.1).2.2
        exact apart held (equal ▸ before)
      obtain ⟨value, found, outcome⟩ := accounts.recorded other before
      exact ⟨value, by rw [Finmap.lookup_insert_of_ne _ distinct, found], outcome⟩
    · rw [List.mem_singleton.mp now]
      exact ⟨result, Finmap.lookup_insert _,
        accounts.returned task result (List.mem_of_getElem? here)⟩
  · intro id value found
    obtain ⟨rfl, _⟩ | ⟨_, earlier⟩ := lookup_insert_cases found
    · exact ⟨task, by simp, rfl⟩
    · obtain ⟨other, member, same⟩ := accounts.results id value earlier
      exact ⟨other, List.mem_append_left _ member, same⟩
  · intro other value member
    rcases returned_move member with before | now
    · exact accounts.returned other value before
    · cases now

/-- With a task that has an ID and a number of workers not divisible by 256, a worker is
found. -/
theorem choose_isSome {task : Task} (named : task.id ≠ []) {workers : List W}
    (staffed : workers.length % 256 ≠ 0) : ∃ worker, choose task workers = some worker := by
  unfold choose
  split
  · contradiction
  · rename_i byte rest _
    have divisor : (UInt8.ofNat workers.length).toNat = workers.length % 256 := by
      simp
    have nonzero : UInt8.ofNat workers.length ≠ 0 := by
      intro zero
      rw [zero] at divisor
      exact staffed (by simpa using divisor.symm)
    rw [if_neg nonzero]
    have bound : (byte % UInt8.ofNat workers.length).toNat < workers.length := by
      rw [UInt8.toNat_mod, divisor]
      have below := Nat.mod_lt byte.toNat (Nat.pos_of_ne_zero staffed)
      have small := Nat.mod_le workers.length 256
      omega
    exact ⟨_, List.getElem?_eq_getElem bound⟩

/-- No worker can be chosen from a multiple of 256. -/
theorem choose_eq_none (task : Task) {workers : List W} (unstaffed : workers.length % 256 = 0) :
    choose task workers = none := by
  unfold choose
  split
  · rfl
  · rw [if_pos]
    apply UInt8.toNat_inj.mp
    simpa using unstaffed

/-- New goroutines hold no task. -/
theorem Accounts.start {pool : WorkerPool W ε} {stored : List Task}
    (accounts : pool.Accounts stored) (numWorkers : ℕ) :
    Accounts { pool with
      goroutines := pool.goroutines ++ List.replicate numWorkers .idle } stored := by
  have idle : ∀ f : Goroutine W ε → Option Task, f .idle = none →
      (pool.goroutines ++ List.replicate numWorkers Goroutine.idle).filterMap f =
        pool.goroutines.filterMap f := by
    intro f none
    simp [List.filterMap_append, none]
  refine ⟨accounts.running, accounts.distinct, accounts.named, ?_, ?_,
    accounts.recorded, accounts.results, ?_⟩
  · simpa only [held, idle Goroutine.task? rfl] using accounts.tasks
  · simpa only [inHands, idle Goroutine.called? rfl] using accounts.calls
  · intro task result member
    have earlier : Goroutine.returned task result ∈ pool.goroutines := by simpa using member
    exact accounts.returned task result earlier

/-- A received task finds a worker. -/
theorem Accounts.dispatch {pool : WorkerPool W ε} {stored : List Task}
    (accounts : pool.Accounts stored) {task : Task} {index : ℕ}
    (here : pool.goroutines[index]? = some (.received task)) {workers : List W}
    (many : workers.length % 256 ≠ 0) :
    Accounts (pool.dispatchTask index task workers) stored := by
  have held : task ∈ pool.held :=
    List.mem_filterMap.mpr ⟨_, List.mem_of_getElem? here, rfl⟩
  obtain ⟨worker, chosen⟩ :=
    choose_isSome (accounts.named task (accounts.mem_submitted held)) many
  have some : workers.isEmpty = false := by
    rw [List.isEmpty_eq_false_iff]
    rintro rfl
    simp at many
  simp only [dispatchTask, some, Bool.false_eq_true, if_false, chosen]
  exact accounts.call here worker

/-- The accounts stay in order as long as every dispatch finds a worker. -/
theorem step_accounts (pool : WorkerPool W ε) (action : PoolAction W ε) (fresh : pool.Fresh action)
    (staffed : pool.Staffed action) (before : ∃ stored, pool.Accounts stored) :
    ∃ stored, (pool.step action).Accounts stored := by
  obtain ⟨stored, accounts⟩ := before
  have running : ¬ pool.crashed = true := by simp [accounts.running]
  unfold step
  rw [if_neg running]
  cases action with
  | start numWorkers => exact ⟨stored, accounts.start numWorkers⟩
  | addWorker id worker =>
    obtain ⟨running, distinct, named, tasks, calls, recorded, results, returned⟩ := accounts
    exact ⟨stored, running, distinct, named, tasks, calls, recorded, results, returned⟩
  | removeWorker id =>
    obtain ⟨running, distinct, named, tasks, calls, recorded, results, returned⟩ := accounts
    exact ⟨stored, running, distinct, named, tasks, calls, recorded, results, returned⟩
  | submitTask task =>
    dsimp only
    split
    · exact ⟨stored, accounts.submit fresh⟩
    · exact ⟨stored, accounts⟩
  | handOff task index =>
    dsimp only
    split
    · rename_i empty here
      obtain ⟨distinct, named⟩ := accounts.distinct_concat fresh
      refine ⟨stored, ?_⟩
      exact accounts.accept here distinct named
        (fun counted => by simp only [List.count_append, move_taskChan]; omega)
    · exact ⟨stored, accounts⟩
  | receive index =>
    dsimp only
    split
    · rename_i task rest waiting here
      refine ⟨stored, ?_⟩
      exact accounts.accept here accounts.distinct accounts.named
        (fun counted => by
          rw [waiting, move_submitted, ← List.singleton_append, List.count_append]
          omega)
    · exact ⟨stored, accounts⟩
  | dispatch index order =>
    dsimp only
    split
    · rename_i task here
      have many : (order.values pool.workers).length % 256 ≠ 0 := by
        rw [order.length_values]
        exact staffed task here
      exact ⟨stored, accounts.dispatch here many⟩
    · exact ⟨stored, accounts⟩
  | finish index result err =>
    dsimp only
    split
    · rename_i task worker here
      exact ⟨stored, accounts.finish here (outcome result err)⟩
    · exact ⟨stored, accounts⟩
  | store index =>
    dsimp only
    split
    · rename_i task result here
      exact ⟨stored ++ [task], accounts.store here⟩
    · exact ⟨stored, accounts⟩

/-- A dispatch without a worker to choose loses the task. -/
theorem dispatch_loses {pool : WorkerPool W ε} {stored : List Task}
    (accounts : pool.Accounts stored) {index : ℕ} (order : IterationOrder (List UInt8))
    {task : Task} (here : pool.goroutines[index]? = some (.received task))
    (unstaffed : pool.workers.keys.card % 256 = 0) :
    ¬ (pool.step (.dispatch index order)).Conserved := by
  have held : task ∈ pool.held := List.mem_filterMap.mpr ⟨_, List.mem_of_getElem? here, rfl⟩
  have submitted : task ∈ pool.submitted := accounts.tasks.symm.subset (by simp [held])
  rw [← order.length_values] at unstaffed
  have running : ¬ pool.crashed = true := by simp [accounts.running]
  unfold step
  rw [if_neg running]
  simp only [here, dispatchTask]
  split
  · -- Nothing is in the channel or in the results that the goroutine has not brought there.
    intro conserved
    have total := accounts.tasks.count_eq task
    have moved := held_move here .idle task
    have unrecorded := accounts.recorded_iff submitted
    rw [List.count_eq_one_of_mem accounts.distinct.of_map submitted] at total
    simp only [List.count_append, Goroutine.task?, Option.toList_none, Option.toList_some,
      List.count_nil, List.count_singleton_self] at total moved
    have present := List.count_pos_iff.mpr held
    rcases conserved.placed task submitted with ⟨inChannel, _⟩ | ⟨_, withOne, _⟩ | ⟨_, _, recorded⟩
    · rw [move_taskChan] at inChannel
      omega
    · omega
    · have inStored := List.count_pos_iff.mpr (unrecorded.mp recorded)
      omega
  · rw [choose_eq_none task unstaffed]
    intro conserved
    rcases conserved.placed task submitted with ⟨inChannel, _⟩ | ⟨_, withOne, _⟩ | ⟨_, _, recorded⟩
    · simp [crash] at inChannel
    · simp [crash, WorkerPool.held] at withOne
    · obtain ⟨result, found, _⟩ := recorded
      simp [crash] at found

/-- In a run whose submitted tasks have distinct IDs, tasks are conserved in every state exactly
when no goroutine that has received a task finds a number of workers divisible by 256. -/
theorem tasks_conserved_iff (capacity : ℕ) (actions : List (PoolAction W ε))
    (fresh : Runs.Along step Fresh (newWorkerPool capacity) actions) :
    Runs.Always step Conserved (newWorkerPool capacity) actions ↔
      Runs.Along step Staffed (newWorkerPool capacity) actions := by
  refine Runs.always_iff_along_of step (fun pool => ∃ stored, pool.Accounts stored)
    step_accounts ?_ fresh ⟨[], newWorkerPool_accounts capacity⟩
    (newWorkerPool_accounts capacity).conserved
  intro pool action fresh before _
  constructor
  · intro conserved
    cases action with
    | dispatch index order =>
      intro task here unstaffed
      obtain ⟨stored, accounts⟩ := before
      exact dispatch_loses accounts order here unstaffed conserved
    | start numWorkers => trivial
    | addWorker id worker => trivial
    | removeWorker id => trivial
    | submitTask task => trivial
    | handOff task index => trivial
    | receive index => trivial
    | finish index result err => trivial
    | store index => trivial
  · intro staffed
    obtain ⟨stored, accounts⟩ := step_accounts pool action fresh staffed before
    exact accounts.conserved

/-- For concrete runs, the IDs of workers are visited in the order of a numbering. -/
def byCode : IterationOrder (List UInt8) :=
  .sortedBy (fun id => Encodable.encode (id.map UInt8.toNat)) (by
    intro first second same
    exact List.map_injective_iff.mpr (fun _ _ equal => UInt8.toNat_inj.mp equal)
      (Encodable.encode_injective same))

/-- A task for the runs below. -/
def sampleTask : Task := ⟨[97], [], 0⟩

/-- One worker processes one task. -/
theorem staffed_tasks_conserved :
    Runs.Always step Conserved (newWorkerPool 1 : WorkerPool Unit Unit)
      [.start 1, .addWorker [119] (), .submitTask sampleTask, .receive 0, .dispatch 0 byCode,
        .finish 0 ⟨[97], [], none, 0, 1⟩ none, .store 0] := by
  refine (tasks_conserved_iff 1 _ ?_).mpr ?_
  · exact ⟨trivial, trivial, ⟨by decide, by simp [step, newWorkerPool]⟩, trivial, trivial, trivial,
      trivial, trivial⟩
  · refine ⟨trivial, trivial, trivial, trivial, ?_, trivial, trivial, trivial⟩
    intro task _
    decide +kernel

/-- Without a worker, the task is in no place after its dispatch. -/
theorem unstaffed_task_lost :
    let pool := Runs.run step (newWorkerPool 1 : WorkerPool Unit Unit)
      [.start 1, .submitTask sampleTask, .receive 0, .dispatch 0 byCode]
    sampleTask ∈ pool.submitted ∧ pool.taskChan = [] ∧ pool.held = [] ∧
      pool.results.lookup sampleTask.id = none ∧ ¬ pool.Conserved := by
  intro pool
  have submitted : sampleTask ∈ pool.submitted := by decide +kernel
  have channel : pool.taskChan = [] := by decide +kernel
  have held : pool.held = [] := by decide +kernel
  have missing : pool.results.lookup sampleTask.id = none := by decide +kernel
  refine ⟨submitted, channel, held, missing, ?_⟩
  intro conserved
  rcases conserved.placed sampleTask submitted with ⟨inChannel, _⟩ | ⟨_, withOne, _⟩ |
    ⟨_, _, result, found, _⟩
  · simp [channel] at inChannel
  · simp [held] at withOne
  · rw [missing] at found
    cases found

end WorkerPool

end AvalancheParallel.Worker
