import AvalancheParallel.Worker.Wire

/-!
# The choice of a worker

The goroutines of `pkg/worker/service.go` choose `workers[task.ID[0] % byte(len(workers))]`.
The conversion to a byte keeps the number of workers modulo 256: the remainder is always
small enough to be an index, but it does not exist when the number is a multiple of
256. `NewServer` of `pkg/worker/server.go` registers any number of workers it is asked for.
-/

namespace AvalancheParallel.Worker

open AvalancheParallel.RangeLoop

/-- `DefaultWorker`. -/
structure DefaultWorker where
  id : List UInt8

/-- The bytes of `fmt.Sprintf("worker-%d", i)` for an `i` that is not negative. -/
def workerID (i : ℕ) : List UInt8 := ("worker-" ++ Nat.repr i).toByteArray.data.toList

/-- `NewServer`: the given number of workers in a pool with a buffer for 100 tasks. -/
def newServer {ε : Type} (numWorkers : ℤ) : Server DefaultWorker ε where
  workerPool := Runs.run WorkerPool.step (newWorkerPool 100)
    ((List.range numWorkers.toNat).map (fun i => .addWorker (workerID i) ⟨workerID i⟩))
  tasks := ∅

variable {W ε : Type}

namespace WorkerPool

/-- `task.ID[0] % byte(n)`; `none` is a panic. -/
def selection (task : Task) (n : ℕ) : Option ℕ :=
  match task.id with
  | [] => none
  | byte :: _ => if UInt8.ofNat n = 0 then none else some (byte % UInt8.ofNat n).toNat

/-- With `n` workers a task that has an ID selects one of them, and dispatching it does not
panic. -/
def DispatchValid (W ε : Type) (n : ℕ) : Prop :=
  ∀ task : Task, task.id ≠ [] →
    (∃ index, selection task n = some index ∧ index < n) ∧
    ∀ (pool : WorkerPool W ε) (goroutine : ℕ) (order : IterationOrder (List UInt8)),
      pool.crashed = false → pool.workers.keys.card = n →
      pool.goroutines[goroutine]? = some (.received task) →
      (pool.step (.dispatch goroutine order)).crashed = false

/-- The chosen worker is the one at the selected position. -/
theorem choose_eq_selection (task : Task) (workers : List W) :
    choose task workers = (selection task workers.length).bind (fun index => workers[index]?) := by
  cases id : task.id with
  | nil => simp [choose, selection, id]
  | cons byte rest =>
    by_cases zero : UInt8.ofNat workers.length = 0
    · simp [choose, selection, id, zero]
    · simp [choose, selection, id, zero]

/-- With a number of workers that is no multiple of 256, a worker is selected. -/
theorem selection_valid {task : Task} (named : task.id ≠ []) {n : ℕ} (staffed : n % 256 ≠ 0) :
    ∃ index, selection task n = some index ∧ index < n := by
  -- Any `n` workers will do.
  obtain ⟨worker, chosen⟩ := choose_isSome named
    (show (List.replicate n ()).length % 256 ≠ 0 by rwa [List.length_replicate])
  rw [choose_eq_selection, List.length_replicate, Option.bind_eq_some_iff] at chosen
  obtain ⟨index, selected, here⟩ := chosen
  have inside := (List.getElem?_eq_some_iff.mp here).1
  exact ⟨index, selected, by rwa [List.length_replicate] at inside⟩

/-- With a multiple of 256 workers the selection divides by zero. -/
theorem selection_eq_none (task : Task) {n : ℕ} (unstaffed : n % 256 = 0) :
    selection task n = none := by
  unfold selection
  split
  · rfl
  · rw [if_pos]
    apply UInt8.toNat_inj.mp
    simpa using unstaffed

/-- A dispatch crashes exactly when there are workers and the selection fails. -/
theorem dispatch_crashed {pool : WorkerPool W ε} (running : pool.crashed = false) {task : Task}
    {goroutine : ℕ} (here : pool.goroutines[goroutine]? = some (.received task))
    (order : IterationOrder (List UInt8)) :
    (pool.step (.dispatch goroutine order)).crashed = true ↔
      pool.workers.keys.card ≠ 0 ∧ choose task (order.values pool.workers) = none := by
  have count := order.length_values pool.workers
  simp only [step, running, Bool.false_eq_true, if_false, here, dispatchTask]
  by_cases empty : (order.values pool.workers).isEmpty = true
  · rw [if_pos empty]
    rw [List.isEmpty_iff.mp empty, List.length_nil] at count
    simp [move, running, ← count]
  · rw [if_neg empty]
    have some : pool.workers.keys.card ≠ 0 := by
      rw [← count]
      simpa using empty
    cases choose task (order.values pool.workers) with
    | none => simp [crash, some]
    | some worker => simp [move, running]

/-- The selection is valid, and no dispatch panics, exactly for the numbers of workers that are
not multiples of 256. -/
theorem dispatch_valid_iff (n : ℕ) : DispatchValid W ε n ↔ n % 256 ≠ 0 := by
  constructor
  · intro valid unstaffed
    obtain ⟨index, selected, _⟩ := (valid sampleTask (by decide)).1
    rw [selection_eq_none sampleTask unstaffed] at selected
    cases selected
  · intro staffed task named
    refine ⟨selection_valid named staffed, ?_⟩
    rintro pool goroutine order running rfl here
    by_contra crashed
    rw [Bool.not_eq_false, dispatch_crashed running here] at crashed
    rw [← order.length_values] at staffed
    obtain ⟨worker, chosen⟩ := choose_isSome named staffed
    rw [crashed.2] at chosen
    cases chosen

end WorkerPool

/-- Different workers have different IDs. -/
theorem workerID_injective : Function.Injective workerID := by
  intro first second same
  have bytes : ("worker-" ++ Nat.repr first).toByteArray =
      ("worker-" ++ Nat.repr second).toByteArray := ByteArray.ext (Array.toList_inj.mp same)
  have digits : Nat.toDigits 10 first = Nat.toDigits 10 second :=
    String.ofList_injective ((String.append_right_inj _).mp (String.toByteArray_inj.mp bytes))
  have value : ∀ n, Nat.ofDigitChars 10 (Nat.toDigits 10 n) 0 = n :=
    fun n => Nat.ofDigitChars_toDigits (by decide) (by decide)
  rw [← value first, digits, value]

/-- The server adds its workers one after another. -/
theorem newServer_succ (n : ℕ) :
    (newServer (n + 1 : ℕ) : Server DefaultWorker ε).workerPool =
      (newServer n).workerPool.step (.addWorker (workerID n) ⟨workerID n⟩) := by
  simp [newServer, List.range_succ]

/-- `NewServer` fills the map of workers and leaves the rest of the pool alone. -/
theorem newServer_pool (n : ℕ) :
    ∃ workers, (newServer n : Server DefaultWorker ε).workerPool =
      { newWorkerPool 100 with workers := workers } ∧
      workers.keys = (Finset.range n).image workerID := by
  induction n with
  | zero => exact ⟨∅, by simp [newServer, newWorkerPool], by simp⟩
  | succ n inductionHypothesis =>
    obtain ⟨workers, pool, keys⟩ := inductionHypothesis
    refine ⟨workers.insert (workerID n) ⟨workerID n⟩, ?_, ?_⟩
    · rw [newServer_succ, pool]
      rfl
    · rw [keys_insert, keys, Finset.range_add_one, Finset.image_insert]

/-- A server with 256 workers panics at its first task. -/
theorem full_byte_of_workers_panics :
    ¬ WorkerPool.DispatchValid DefaultWorker Unit 256 ∧
      (Runs.run WorkerPool.step (newServer 256 : Server DefaultWorker Unit).workerPool
        [.start 10, .submitTask WorkerPool.sampleTask, .receive 0,
          .dispatch 0 WorkerPool.byCode]).crashed = true := by
  constructor
  · intro valid
    obtain ⟨index, selected, _⟩ := (valid WorkerPool.sampleTask (by decide)).1
    cases selected
  · obtain ⟨workers, pool, keys⟩ := newServer_pool (ε := Unit) 256
    have card : workers.keys.card = 256 := by
      rw [keys, Finset.card_image_of_injective _ workerID_injective, Finset.card_range]
    rw [show (newServer 256 : Server DefaultWorker Unit) = newServer (256 : ℕ) from rfl, pool]
    simp only [Runs.run_cons, Runs.run_nil]
    rw [WorkerPool.dispatch_crashed rfl
      (show _ = some (Goroutine.received WorkerPool.sampleTask) from rfl)]
    have visited : (WorkerPool.byCode.values workers).length % 256 = 0 := by
      rw [IterationOrder.length_values, card]
    exact ⟨by simp [WorkerPool.step, WorkerPool.move, newWorkerPool, card],
      WorkerPool.choose_eq_none _ visited⟩

end AvalancheParallel.Worker
