import AvalancheParallel.Foundation.RangeLoop

/-!
# The job scheduler

`job.Scheduler` of `snow/engine/snowman/job/scheduler.go` runs a job when the dependencies it
was scheduled with have been fulfilled or abandoned. Resolving a dependency takes the list of
the jobs that wait for it out of the map and goes through it, and each job
that it executes may call the scheduler again. The calls in progress are therefore kept as a
stack: a loop over jobs, or an `Execute` that is free to make further calls and to return.
Whoever makes calls from outside does so when the stack is empty. All choices, those of the
jobs included, are actions; an action that is not possible in a state changes nothing.

Jobs are pointers in the source. The address of a job is the number of the `Schedule`
call that was given it, which also stands for the user's job. The trace records the calls and
the executions in their order.
-/

namespace AvalancheParallel.Engine

open AvalancheParallel.RangeLoop

variable {T : Type} [DecidableEq T]

/-- `job`, without the user's job. -/
structure Job (T : Type) where
  numUnresolved : ℤ
  fulfilled : List T
  abandoned : List T

/-- `Scheduler`, with the jobs at their addresses. -/
structure Scheduler (T : Type) where
  jobs : ℕ → Job T
  dependents : GoMap T (List ℕ)

/-- `NewScheduler`. -/
def newScheduler : Scheduler T := ⟨fun _ => ⟨0, [], []⟩, ∅⟩

/-- The jobs that wait for a dependency, `nil` read as the empty list. -/
def Scheduler.waiting (s : Scheduler T) (dependency : T) : List ℕ :=
  (s.dependents.lookup dependency).getD []

/-- The assignment in the loop of `Schedule`. -/
def Scheduler.register (j : ℕ) (s : Scheduler T) (d : T) : Scheduler T :=
  { s with dependents := s.dependents.insert d (s.waiting d ++ [j]) }

/-- `Schedule` with at least one dependency: the new job, and the loop. -/
def Scheduler.schedule (s : Scheduler T) (j : ℕ) (dependencies : List T) : Scheduler T :=
  dependencies.foldl (Scheduler.register j)
    { s with jobs := Function.update s.jobs j ⟨dependencies.length, [], []⟩ }

/-- The deletion at the beginning of `resolveDependency`. -/
def Scheduler.delete (s : Scheduler T) (dependency : T) : Scheduler T :=
  { s with dependents := s.dependents.erase dependency }

/-- What the loop of `resolveDependency` writes to a job. -/
def Job.resolve (job : Job T) (dependency : T) (fulfilled : Bool) : Job T :=
  if fulfilled then
    ⟨job.numUnresolved - 1, job.fulfilled ++ [dependency], job.abandoned⟩
  else ⟨job.numUnresolved - 1, job.fulfilled, job.abandoned ++ [dependency]⟩

/-- A call in progress: the loop of `resolveDependency` with the jobs it has not come to, or an
`Execute`. -/
inductive Frame (T : Type) where
  | resolving (dependency : T) (fulfilled : Bool) (jobs : List ℕ)
  | executing (job : ℕ)

/-- What is recorded. -/
inductive Event (T : Type) where
  | scheduled (job : ℕ) (dependencies : List T)
  | resolved (dependency : T) (fulfilled : Bool)
  | executed (job : ℕ) (fulfilled abandoned : List T)
deriving DecidableEq

/-- The scheduler, the number of `Schedule` calls made, the calls in progress and the record. -/
structure Machine (T : Type) where
  scheduler : Scheduler T
  calls : ℕ
  stack : List (Frame T)
  trace : List (Event T)

/-- What the callers and the jobs may do: the three calls, the next iteration of a loop, and the
return of an `Execute`. -/
inductive Action (T : Type) where
  | schedule (dependencies : List T)
  | fulfill (dependency : T)
  | abandon (dependency : T)
  | iterate
  | finish (failed : Bool)
deriving DecidableEq

namespace Machine

/-- Nothing has been called. -/
def start : Machine T := ⟨newScheduler, 0, [], []⟩

/-- A call can be made: from outside, or from the `Execute` that runs. -/
def accepting (m : Machine T) : Bool :=
  match m.stack with
  | .resolving _ _ _ :: _ => false
  | _ => true

/-- `Schedule`. -/
def schedule (m : Machine T) (dependencies : List T) : Machine T :=
  let trace := m.trace ++ [.scheduled m.calls dependencies]
  if dependencies.length = 0 then
    { m with
      calls := m.calls + 1
      stack := .executing m.calls :: m.stack
      trace := trace ++ [.executed m.calls [] []] }
  else
    { m with
      scheduler := m.scheduler.schedule m.calls dependencies
      calls := m.calls + 1
      trace := trace }

/-- The beginning of `resolveDependency`: the list is read, its entry deleted, and the loop
begins. -/
def resolveDependency (m : Machine T) (dependency : T) (fulfilled : Bool) : Machine T :=
  { m with
    scheduler := m.scheduler.delete dependency
    stack := .resolving dependency fulfilled (m.scheduler.waiting dependency) :: m.stack
    trace := m.trace ++ [.resolved dependency fulfilled] }

/-- An iteration of the loop of `resolveDependency`. -/
def resolveJob (m : Machine T) (dependency : T) (fulfilled : Bool) (j : ℕ) (rest : List ℕ)
    (callers : List (Frame T)) : Machine T :=
  let job := (m.scheduler.jobs j).resolve dependency fulfilled
  let resolved := { m with
    scheduler := { m.scheduler with jobs := Function.update m.scheduler.jobs j job }
    stack := .resolving dependency fulfilled rest :: callers }
  if job.numUnresolved > 0 then resolved
  else
    { resolved with
      stack := .executing j :: resolved.stack
      trace := m.trace ++ [.executed j job.fulfilled job.abandoned] }

/-- The calls in progress after an `Execute` returned an error: the loop that called it
returns at once. -/
def unwind : List (Frame T) → List (Frame T)
  | .resolving _ _ _ :: callers => callers
  | stack => stack

def step (m : Machine T) : Action T → Machine T
  | .schedule dependencies => if m.accepting then m.schedule dependencies else m
  | .fulfill dependency => if m.accepting then m.resolveDependency dependency true else m
  | .abandon dependency => if m.accepting then m.resolveDependency dependency false else m
  | .iterate =>
    match m.stack with
    | .resolving dependency fulfilled (j :: rest) :: callers =>
      m.resolveJob dependency fulfilled j rest callers
    | .resolving _ _ [] :: callers => { m with stack := callers }
    | _ => m
  | .finish failed =>
    match m.stack with
    | .executing _ :: callers => { m with stack := if failed then unwind callers else callers }
    | _ => m

end Machine

end AvalancheParallel.Engine
