import AvalancheParallel.Foundation.OrderedStore
import AvalancheParallel.Foundation.RangeLoop

/-!
# The bootstrap job queue

`Jobs` of `default/snow/engine/avalanche/bootstrap/queue`: jobs that depend on other
jobs are stored until all of their dependencies have been executed. The database is a
map and the linked databases in it are ordered key sets, so that only lookups can fail;
the cache of the linked databases holds no data of its own and is left out. The counter of
the jobs wraps around at 2^64, as the source's does.

What a job misses depends on what has been executed, which is the state of the virtual
machine and not of the queue: the executed IDs are kept beside the state, in the order
of execution.
-/

namespace AvalancheParallel.Bootstrap

open AvalancheParallel.OrderedStore AvalancheParallel.RangeLoop

variable {ID : Type} [DecidableEq ID]

/-- `Job` and `Parser`: jobs are identified by their IDs and are parsed from their bytes. -/
structure JobType (ID : Type) where
  Job : Type
  Bytes : Type
  id : Job → ID
  bytes : Job → Bytes
  parse : Bytes → Option Job
  dependencies : Job → Finset ID
  id_injective : Function.Injective id
  parse_bytes : ∀ job, parse (bytes job) = some job

namespace JobType

variable (J : JobType ID)

/-- `MissingDependencies`: the dependencies not executed yet. -/
def missingDependencies (executed : List ID) (job : J.Job) : Finset ID :=
  (J.dependencies job).filter (fun dependency => dependency ∉ executed)

/-- `HasMissingDependencies`. -/
def hasMissingDependencies (executed : List ID) (job : J.Job) : Bool :=
  decide ((J.missingDependencies executed job).card ≠ 0)

end JobType

/-- `jobsCacheSize`. -/
def jobsCacheSize : ℕ := 2048

variable {J : JobType ID}

/-- `state`. The dependents of each dependency are a key set of their own. -/
structure State (J : JobType ID) where
  runnableJobIDs : List ID
  cachingEnabled : Bool
  jobsCache : List (ID × J.Job)
  jobsDB : GoMap ID J.Bytes
  dependentIDs : ID → List ID
  numJobs : UInt64

/-- The errors of the queue. -/
inductive QueueError where
  | notFound
  | parse
  | accept
  | execute
deriving DecidableEq, Repr

/-- `newState`, on an empty database. -/
def newState : State J where
  runnableJobIDs := []
  cachingEnabled := true
  jobsCache := []
  jobsDB := ∅
  dependentIDs := fun _ => []
  numJobs := 0

namespace State

/-- `AddRunnableJob`. -/
def addRunnableJob (jobID : ID) (s : State J) : State J :=
  { s with runnableJobIDs := putKey jobID s.runnableJobIDs }

/-- `PutJob`. -/
def putJob (job : J.Job) (s : State J) : State J :=
  { s with
    jobsCache := if s.cachingEnabled then cachePut jobsCacheSize (J.id job) job s.jobsCache
      else s.jobsCache
    jobsDB := s.jobsDB.insert (J.id job) (J.bytes job)
    numJobs := s.numJobs + 1 }

/-- The lookup in the cache, if it is enabled. -/
def cachedJob (id : ID) (s : State J) : State J × Option J.Job :=
  if s.cachingEnabled then
    ({ s with jobsCache := (cacheGet id s.jobsCache).1 }, (cacheGet id s.jobsCache).2)
  else (s, none)

/-- `HasJob`. -/
def hasJob (id : ID) (s : State J) : State J × Bool :=
  match s.cachedJob id with
  | (s, some _) => (s, true)
  | (s, none) => (s, decide (id ∈ s.jobsDB))

/-- `GetJob`. -/
def getJob (id : ID) (s : State J) : State J × Except QueueError J.Job :=
  match s.cachedJob id with
  | (s, some job) => (s, .ok job)
  | (s, none) =>
    match s.jobsDB.lookup id with
    | none => (s, .error .notFound)
    | some jobBytes =>
      match J.parse jobBytes with
      | none => (s, .error .parse)
      | some job =>
        if s.cachingEnabled then
          ({ s with jobsCache := cachePut jobsCacheSize id job s.jobsCache }, .ok job)
        else (s, .ok job)

/-- `RemoveRunnableJob`. A job that is not in the database ends in the same error as an empty
runnable set. -/
def removeRunnableJob (s : State J) : State J × Except QueueError J.Job :=
  match s.runnableJobIDs.head? with
  | none => (s, .error .notFound)
  | some jobID =>
    match ({ s with runnableJobIDs := s.runnableJobIDs.erase jobID } : State J).getJob jobID with
    | (s, .error err) => (s, .error err)
    | (s, .ok job) =>
      let s := { s with jobsDB := s.jobsDB.erase jobID }
      if s.numJobs = 0 then (s, .ok job) else ({ s with numJobs := s.numJobs - 1 }, .ok job)

/-- `AddDependency`. -/
def addDependency (dependency dependent : ID) (s : State J) : State J :=
  { s with
    dependentIDs := Function.update s.dependentIDs dependency
      (putKey dependent (s.dependentIDs dependency)) }

/-- `RemoveDependencies`. -/
def removeDependencies (dependency : ID) (s : State J) : State J × List ID :=
  ({ s with dependentIDs := Function.update s.dependentIDs dependency [] },
    s.dependentIDs dependency)

/-- `DisableCaching`. -/
def disableCaching (s : State J) : State J := { s with jobsCache := [], cachingEnabled := false }

/-- `PendingJobs`. -/
def pendingJobs (s : State J) : UInt64 := s.numJobs

end State

/-- `Push`, with its result. -/
def push (order : IterationOrder ID) (executed : List ID) (job : J.Job) (s : State J) :
    State J × Bool :=
  match s.hasJob (J.id job) with
  | (s, true) => (s, false)
  | (s, false) =>
    let deps := J.missingDependencies executed job
    let s := s.putJob job
    if deps.card ≠ 0 then
      ((order.arrange deps).foldl (fun s depID => s.addDependency depID (J.id job)) s, true)
    else (s.addRunnableJob (J.id job), true)

/-- The answers from outside during `ExecuteAll`: whether it is halted before each round, and
whether the acceptors and the job itself succeed. -/
structure Replies (ID : Type) where
  halted : ℕ → Bool
  accept : ID → Bool
  execute : ID → Bool

/-- Nothing fails and nothing is halted. -/
def Replies.succeed : Replies ID := ⟨fun _ => false, fun _ => true, fun _ => true⟩

/-- What `ExecuteAll` leaves: the state, the executed IDs and the result. -/
structure Executed (J : JobType ID) where
  state : State J
  executed : List ID
  result : Except QueueError ℕ

/-- One dependent of the job just executed is put among the runnable jobs if nothing is missing. -/
def releaseDependent (executed : List ID) (_ : ℕ) (dependentID : ID) (s : State J) :
    State J × Option QueueError :=
  match s.getJob dependentID with
  | (s, .error err) => (s, some err)
  | (s, .ok job) =>
    if J.hasMissingDependencies executed job then (s, none)
    else (s.addRunnableJob dependentID, none)

/-- The loop of `ExecuteAll`; `none` when the fuel is used up. -/
def executeLoop (replies : Replies ID) : ℕ → ℕ → State J → List ID → Option (Executed J)
  | 0, _, _, _ => none
  | fuel + 1, numExecuted, s, executed =>
    if replies.halted numExecuted then some ⟨s, executed, .ok numExecuted⟩
    else
      match s.removeRunnableJob with
      | (s, .error .notFound) => some ⟨s, executed, .ok numExecuted⟩
      | (s, .error err) => some ⟨s, executed, .error err⟩
      | (s, .ok job) =>
        if !replies.accept (J.id job) then some ⟨s, executed, .error .accept⟩
        else if !replies.execute (J.id job) then some ⟨s, executed, .error .execute⟩
        else
          let executed := executed ++ [J.id job]
          let removed := s.removeDependencies (J.id job)
          match forRange (releaseDependent executed) removed.2 removed.1 with
          | (s, some err) => some ⟨s, executed, .error err⟩
          | (s, none) => executeLoop replies fuel (numExecuted + 1) s executed

/-- `ExecuteAll`. Every round that is completed takes a job out of the database. -/
def executeAll (replies : Replies ID) (s : State J) (executed : List ID) : Option (Executed J) :=
  executeLoop replies (s.jobsDB.keys.card + 1) 0 s.disableCaching executed

/-- A sequence of `Push` calls, each with the order in which it visits the dependencies. -/
def pushAll (jobs : List (J.Job × IterationOrder ID)) : State J :=
  jobs.foldl (fun s call => (push call.2 [] call.1 s).1) newState

end AvalancheParallel.Bootstrap
