import AvalancheParallel.Foundation.Runs
import Mathlib.Algebra.GroupWithZero.Nat
import Mathlib.Data.List.Perm.Basic

/-!
# Workers behind a semaphore

A loop launches one worker for each of its jobs and waits at a counting semaphore
while too many of them run; a worker gives its slot back when it has finished. The
workers execute the operations of their jobs one at a time in any interleaving. What
a crew has executed when all workers have finished is a permutation of the
operations of all jobs, and with at least one slot no schedule gets stuck before.
-/

namespace AvalancheParallel.WorkerCrew

universe u
variable {ω : Type u}

/-- The jobs not launched yet, what each running worker has still to execute, and what has
been executed so far. -/
structure Crew (ω : Type u) where
  waiting : List (List ω)
  running : List (List ω)
  executed : List ω

/-- The loop launches its next job, or the worker at a position gets to execute. -/
inductive Action where
  | launch
  | work (index : ℕ)

namespace Crew

/-- No worker has been launched. -/
def start (jobs : List (List ω)) : Crew ω := ⟨jobs, [], []⟩

/-- Acquire the semaphore and launch the next job. -/
def launch (limit : ℕ) (crew : Crew ω) : Crew ω :=
  match crew.waiting with
  | [] => crew
  | job :: rest =>
    if crew.running.length < limit then ⟨rest, crew.running ++ [job], crew.executed⟩ else crew

/-- A worker executes its next operation or, when it has none left, releases the semaphore. -/
def work (index : ℕ) (crew : Crew ω) : Crew ω :=
  match crew.running[index]? with
  | none => crew
  | some [] => { crew with running := crew.running.eraseIdx index }
  | some (operation :: rest) =>
    ⟨crew.waiting, crew.running.set index rest, crew.executed ++ [operation]⟩

/-- One step of the crew. -/
def step (limit : ℕ) (crew : Crew ω) : Action → Crew ω
  | .launch => crew.launch limit
  | .work index => crew.work index

/-- The operation that a step executes. -/
def operation? (crew : Crew ω) : Action → Option ω
  | .launch => none
  | .work index => (crew.running[index]?).bind List.head?

/-- All workers have finished. -/
def Done (crew : Crew ω) : Prop := crew.waiting = [] ∧ crew.running = []

instance (crew : Crew ω) : Decidable crew.Done :=
  decidable_of_iff (crew.waiting.isEmpty ∧ crew.running.isEmpty) (by simp [Done])

/-- What is still to be executed. -/
def remaining (crew : Crew ω) : List ω := crew.running.flatten ++ crew.waiting.flatten

/-- A step executes one operation at most. -/
theorem step_executed (limit : ℕ) (crew : Crew ω) (action : Action) :
    (crew.step limit action).executed = crew.executed ++ (crew.operation? action).toList := by
  cases action with
  | launch =>
    simp only [step, launch, operation?, Option.toList_none, List.append_nil]
    split
    · rfl
    · split <;> rfl
  | work index =>
    simp only [step, work, operation?]
    cases crew.running[index]? with
    | none => simp
    | some job =>
      cases job with
      | nil => simp
      | cons operation rest => simp

/-- A worker's next operation comes out of what remains. -/
theorem flatten_set_perm {running : List (List ω)} {index : ℕ} {operation : ω} {rest : List ω}
    (here : running[index]? = some (operation :: rest)) :
    (operation :: (running.set index rest).flatten).Perm running.flatten := by
  induction running generalizing index with
  | nil => simp at here
  | cons job others inductionHypothesis =>
    cases index with
    | zero =>
      have front : job = operation :: rest := by simpa using here
      simp [front]
    | succ index =>
      have later := inductionHypothesis (by simpa using here)
      simp only [List.set_cons_succ, List.flatten_cons]
      exact List.perm_middle.symm.trans (later.append_left job)

/-- A worker with nothing left may be removed. -/
theorem flatten_eraseIdx {running : List (List ω)} {index : ℕ} (here : running[index]? = some []) :
    (running.eraseIdx index).flatten = running.flatten := by
  induction running generalizing index with
  | nil => rfl
  | cons job others inductionHypothesis =>
    cases index with
    | zero =>
      have front : job = [] := by simpa using here
      simp [front]
    | succ index =>
      have later := inductionHypothesis (by simpa using here)
      simp [later]

/-- A step moves at most one operation from the remaining to the executed ones. -/
theorem step_perm (limit : ℕ) (crew : Crew ω) (action : Action) :
    ((crew.step limit action).executed ++ (crew.step limit action).remaining).Perm
      (crew.executed ++ crew.remaining) := by
  cases action with
  | launch =>
    simp only [step, launch]
    cases jobs : crew.waiting with
    | nil => exact List.Perm.refl _
    | cons job rest =>
      by_cases free : crew.running.length < limit
      · simp [remaining, jobs, free]
      · simp [free]
  | work index =>
    simp only [step, work]
    cases here : crew.running[index]? with
    | none => exact List.Perm.refl _
    | some job =>
      cases job with
      | nil => simp [remaining, flatten_eraseIdx here]
      | cons operation rest =>
        simp only [remaining, List.append_assoc]
        apply List.Perm.append_left
        have moved := (flatten_set_perm here).append_right crew.waiting.flatten
        simpa using moved

/-- What remains before a step is executed by it or remains after it. -/
theorem mem_remaining_step (limit : ℕ) {crew : Crew ω} (action : Action) {operation : ω}
    (before : operation ∈ crew.remaining) :
    crew.operation? action = some operation ∨ operation ∈ (crew.step limit action).remaining := by
  have moved := step_perm limit crew action
  rw [step_executed, List.append_assoc, List.perm_append_left_iff] at moved
  simpa [eq_comm] using moved.mem_iff.mpr before

/-- The worker that executes an operation goes on with the rest of its job. -/
theorem operation?_job (limit : ℕ) {crew : Crew ω} {action : Action} {operation : ω}
    (executed : crew.operation? action = some operation) :
    ∃ rest, operation :: rest ∈ crew.running ∧ rest ∈ (crew.step limit action).running := by
  cases action with
  | launch => cases executed
  | work index =>
    simp only [operation?, Option.bind_eq_some_iff, List.head?_eq_some_iff] at executed
    obtain ⟨job, here, rest, rfl⟩ := executed
    refine ⟨rest, List.mem_of_getElem? here, ?_⟩
    simp only [step, work, here]
    have inside : index < crew.running.length := (List.getElem?_eq_some_iff.mp here).1
    exact List.mem_set inside rest

/-- A property of jobs that passes to what is left of them holds throughout. -/
theorem step_jobs (property : List ω → Prop) (limit : ℕ) {crew : Crew ω} (action : Action)
    (tail : ∀ operation rest, property (operation :: rest) → property rest)
    (before : ∀ job ∈ crew.running ++ crew.waiting, property job) :
    ∀ job ∈ (crew.step limit action).running ++ (crew.step limit action).waiting,
      property job := by
  intro job member
  cases action with
  | launch =>
    apply before
    simp only [step, launch] at member
    split at member
    · exact member
    · rename_i next rest waiting
      split at member
      · simp only [waiting] at member ⊢
        simp at member ⊢
        tauto
      · exact member
  | work index =>
    simp only [step, work] at member
    split at member
    · exact before job member
    · rcases List.mem_append.mp member with running | waiting
      · exact before job (List.mem_append_left _ (List.mem_of_mem_eraseIdx running))
      · exact before job (List.mem_append_right _ waiting)
    · rename_i operation rest here
      rcases List.mem_append.mp member with running | waiting
      · rcases List.mem_or_eq_of_mem_set running with old | rfl
        · exact before job (List.mem_append_left _ old)
        · exact tail operation job
            (before _ (List.mem_append_left _ (List.mem_of_getElem? here)))
      · exact before job (List.mem_append_right _ waiting)

/-- The steps still to be made: each job is launched, executed and finished. -/
def effort (crew : Crew ω) : ℕ :=
  (crew.waiting.map (fun job => job.length + 2)).sum +
    (crew.running.map (fun job => job.length + 1)).sum

/-- With a free slot or a running worker, some step brings the crew closer to the end. -/
theorem exists_progress {limit : ℕ} (positive : 1 ≤ limit) {crew : Crew ω}
    (unfinished : ¬ crew.Done) : ∃ action, (crew.step limit action).effort < crew.effort := by
  obtain ⟨waiting, running, executed⟩ := crew
  cases running with
  | nil =>
    cases waiting with
    | nil => exact absurd ⟨rfl, rfl⟩ unfinished
    | cons job rest =>
      refine ⟨.launch, ?_⟩
      simp only [step, launch, List.length_nil, effort]
      rw [if_pos (by omega)]
      simp
      omega
  | cons job others =>
    refine ⟨.work 0, ?_⟩
    cases job with
    | nil => simp [step, work, effort]
    | cons operation rest => simp [step, work, effort]

/-- Every schedule can be continued until all workers have finished. -/
theorem exists_done {limit : ℕ} (positive : 1 ≤ limit) (crew : Crew ω) :
    ∃ actions, (Runs.run (step limit) crew actions).Done := by
  induction size : crew.effort using Nat.strongRecOn generalizing crew with
  | ind size inductionHypothesis =>
    by_cases done : crew.Done
    · exact ⟨[], done⟩
    · obtain ⟨action, closer⟩ := exists_progress positive done
      obtain ⟨actions, finished⟩ :=
        inductionHypothesis _ (size ▸ closer) (crew.step limit action) rfl
      exact ⟨action :: actions, finished⟩

end Crew

end AvalancheParallel.WorkerCrew
