import AvalancheParallel.Engine.Scheduler
import AvalancheParallel.Foundation.Runs
import Mathlib.Data.List.TakeWhile
import Mathlib.Data.Multiset.Count

/-!
# Jobs are executed once

Where each dependency of a scheduled job is: in the map, as long as no call resolved it; then in
the loop of the first call that did, once for each time the job asked for it; in the end in one
of the two lists of the job. The counter is the number of those that are not in these lists,
so it reaches zero when the last loop comes to the job, and no loop comes to it afterwards. Calls
made by jobs push further loops on the stack and change none of this.
-/

namespace AvalancheParallel.Engine

open AvalancheParallel.Runs

variable {T : Type} [DecidableEq T]

/-- The event is the scheduling of the job. -/
def Event.schedules (n : ℕ) : Event T → Bool
  | .scheduled job _ => job == n
  | _ => false

/-- How a call for the dependency resolves it. -/
def Event.resolution? (d : T) : Event T → Option Bool
  | .resolved dependency fulfilled => if dependency = d then some fulfilled else none
  | _ => none

/-- The arguments of an execution of the job. -/
def Event.execution? (n : ℕ) : Event T → Option (List T × List T)
  | .executed job fulfilled abandoned => if job = n then some (fulfilled, abandoned) else none
  | _ => none

/-- How the first call for a dependency after the scheduling of a job resolved it. -/
def resolution (trace : List (Event T)) (n : ℕ) (d : T) : Option Bool :=
  (trace.dropWhile (fun event => !event.schedules n)).findSome? (Event.resolution? d)

/-- The executions of a job. -/
def executions (trace : List (Event T)) (n : ℕ) : List (List T × List T) :=
  trace.filterMap (Event.execution? n)

/-- The jobs that a call in progress has yet to tell how a dependency was resolved. -/
def Frame.left (d : T) (flag : Bool) : Frame T → List ℕ
  | .resolving dependency fulfilled jobs => if dependency = d ∧ fulfilled = flag then jobs else []
  | .executing _ => []

/-- All such jobs. -/
def Machine.left (m : Machine T) (d : T) (flag : Bool) : List ℕ :=
  m.stack.flatMap (Frame.left d flag)

/-- The dependencies of a job that were resolved in one of the two ways. -/
def Job.resolved (job : Job T) (flag : Bool) : List T :=
  if flag then job.fulfilled else job.abandoned

/-- What is known of a job from its scheduling on. Each dependency waits in the map until it is
resolved, is then in the lists of the loops of that call, and is in the end in the list of
the job for it. -/
structure Machine.Accounts (m : Machine T) (n : ℕ) (dependencies : List T) : Prop where
  waiting : ∀ d, (m.scheduler.waiting d).count n =
    if resolution m.trace n d = none then dependencies.count d else 0
  resolved : ∀ d flag, ((m.scheduler.jobs n).resolved flag).count d + (m.left d flag).count n =
    if resolution m.trace n d = some flag then dependencies.count d else 0
  counter : (m.scheduler.jobs n).numUnresolved + (m.scheduler.jobs n).fulfilled.length +
    (m.scheduler.jobs n).abandoned.length = dependencies.length
  executed : executions m.trace n =
    if (m.scheduler.jobs n).numUnresolved = 0 then
      [((m.scheduler.jobs n).fulfilled, (m.scheduler.jobs n).abandoned)]
    else []

/-- Nothing is known of a job that has not been scheduled. -/
structure Machine.Unknown (m : Machine T) (n : ℕ) : Prop where
  waiting : ∀ d, (m.scheduler.waiting d).count n = 0
  left : ∀ d flag, (m.left d flag).count n = 0
  job : m.scheduler.jobs n = ⟨0, [], []⟩
  executed : executions m.trace n = []

/-- What holds in every state: each job scheduled so far is accounted for. -/
structure Machine.Consistent (m : Machine T) : Prop where
  scheduled : ∀ n dependencies, .scheduled n dependencies ∈ m.trace →
    n < m.calls ∧ m.Accounts n dependencies
  unscheduled : ∀ n, m.calls ≤ n → m.Unknown n

/-- Before the first call nothing is scheduled. -/
theorem start_consistent : (Machine.start : Machine T).Consistent where
  scheduled n dependencies recorded := by cases recorded
  unscheduled n _ := ⟨fun d => by simp [Machine.start, newScheduler, Scheduler.waiting],
    fun d flag => rfl, rfl, rfl⟩

section Record

variable {trace : List (Event T)} {n : ℕ} {dependencies : List T}

/-- Later events count only for dependencies that were not resolved before. -/
theorem resolution_append (recorded : .scheduled n dependencies ∈ trace)
    (later : List (Event T)) (d : T) :
    resolution (trace ++ later) n d =
      (resolution trace n d).or (later.findSome? (Event.resolution? d)) := by
  have found : trace.dropWhile (fun event => !event.schedules n) ≠ [] := by
    intro none
    have skipped := List.dropWhile_eq_nil_iff.mp none _ recorded
    simp [Event.schedules] at skipped
  unfold resolution
  rw [List.dropWhile_append, if_neg (by simpa using found), List.findSome?_append]

/-- Nothing is resolved before the job is scheduled. -/
theorem resolution_scheduled (fresh : ∀ event ∈ trace, event.schedules n = false)
    (later : List (Event T)) (d : T) :
    resolution (trace ++ .scheduled n dependencies :: later) n d =
      later.findSome? (Event.resolution? d) := by
  have skipped : trace.dropWhile (fun event => !event.schedules n) = [] := by
    rw [List.dropWhile_eq_nil_iff]
    intro event member
    rw [fresh event member]
    rfl
  unfold resolution
  rw [List.dropWhile_append, skipped]
  simp [Event.schedules, List.findSome?_cons, Event.resolution?]

omit [DecidableEq T] in
/-- The executions of a job in two parts of a trace. -/
theorem executions_append (later : List (Event T)) :
    executions (trace ++ later) n = executions trace n ++ later.filterMap (Event.execution? n) :=
  List.filterMap_append

end Record

section Lists

variable (s : Scheduler T) (j n : ℕ) (d other : T)

/-- Registering a job adds it to those that wait for the dependency. -/
theorem register_waiting :
    (s.register j d).waiting other =
      if other = d then s.waiting d ++ [j] else s.waiting other := by
  unfold Scheduler.register Scheduler.waiting
  split
  · rename_i same
    subst same
    simp
  · rename_i different
    simp [Finmap.lookup_insert_of_ne _ different]

/-- After a deletion no job waits for the dependency. -/
theorem delete_waiting :
    (s.delete d).waiting other = if other = d then [] else s.waiting other := by
  unfold Scheduler.delete Scheduler.waiting
  split
  · rename_i same
    subst same
    simp
  · rename_i different
    simp [Finmap.lookup_erase_ne different]

/-- The loop of `Schedule` adds the job once for each occurrence of a dependency. -/
theorem foldl_register_waiting (dependencies : List T) :
    ((dependencies.foldl (Scheduler.register j) s).waiting d).count n =
      (s.waiting d).count n + if n = j then dependencies.count d else 0 := by
  induction dependencies generalizing s with
  | nil => simp
  | cons first rest inductionHypothesis =>
    rw [List.foldl_cons, inductionHypothesis, register_waiting]
    by_cases same : d = first
    · subst same
      by_cases own : n = j
      · subst own
        simp
        omega
      · simp [own, Ne.symm own]
    · simp [same, Ne.symm same]

/-- Registering leaves the jobs. -/
theorem foldl_register_jobs (dependencies : List T) :
    (dependencies.foldl (Scheduler.register j) s).jobs = s.jobs := by
  induction dependencies generalizing s with
  | nil => rfl
  | cons first rest inductionHypothesis =>
    rw [List.foldl_cons, inductionHypothesis]
    rfl

/-- A scheduled job waits as often as the dependency is listed. -/
theorem schedule_waiting (dependencies : List T) :
    ((s.schedule j dependencies).waiting d).count n =
      (s.waiting d).count n + if n = j then dependencies.count d else 0 :=
  foldl_register_waiting _ j n d dependencies

/-- A scheduled job has its dependencies to wait for and nothing resolved. -/
theorem schedule_jobs (dependencies : List T) :
    (s.schedule j dependencies).jobs =
      Function.update s.jobs j ⟨dependencies.length, [], []⟩ :=
  foldl_register_jobs _ j dependencies

end Lists

section Accounting

variable {m after : Machine T} {n : ℕ} {dependencies : List T}

/-- A step that does not concern the job. -/
theorem Machine.Accounts.congr (accounts : m.Accounts n dependencies)
    (waiting : ∀ d, (after.scheduler.waiting d).count n = (m.scheduler.waiting d).count n)
    (left : ∀ d flag, (after.left d flag).count n = (m.left d flag).count n)
    (job : after.scheduler.jobs n = m.scheduler.jobs n)
    (resolved : ∀ d, resolution after.trace n d = resolution m.trace n d)
    (executed : executions after.trace n = executions m.trace n) :
    after.Accounts n dependencies where
  waiting d := by rw [waiting, resolved, accounts.waiting]
  resolved d flag := by rw [job, left, resolved, accounts.resolved]
  counter := by rw [job, accounts.counter]
  executed := by rw [executed, job, accounts.executed]

/-- A job stays unknown when nothing about it changes. -/
theorem Machine.Unknown.congr (unknown : m.Unknown n)
    (waiting : ∀ d, (after.scheduler.waiting d).count n = (m.scheduler.waiting d).count n)
    (left : ∀ d flag, (after.left d flag).count n = (m.left d flag).count n)
    (job : after.scheduler.jobs n = m.scheduler.jobs n)
    (executed : executions after.trace n = executions m.trace n) : after.Unknown n where
  waiting d := by rw [waiting, unknown.waiting]
  left d flag := by rw [left, unknown.left]
  job := by rw [job, unknown.job]
  executed := by rw [executed, unknown.executed]

/-- The dependencies that a job has heard of and those it has yet to hear of. -/
theorem Machine.Accounts.count_le (accounts : m.Accounts n dependencies) (d : T) :
    (m.scheduler.jobs n).fulfilled.count d + (m.scheduler.jobs n).abandoned.count d +
      ((m.left d true).count n + (m.left d false).count n) ≤ dependencies.count d := by
  have fulfilled := accounts.resolved d true
  have abandoned := accounts.resolved d false
  simp only [Job.resolved, if_true, Bool.false_eq_true, if_false] at fulfilled abandoned
  -- the call that resolved the dependency did so in one of the two ways
  cases resolved : resolution m.trace n d with
  | none => simp [resolved] at fulfilled abandoned; omega
  | some flag => cases flag <;> simp [resolved] at fulfilled abandoned <;> omega

/-- What was resolved is among the dependencies, as often as listed. -/
theorem Machine.Accounts.resolved_le (accounts : m.Accounts n dependencies) :
    (((m.scheduler.jobs n).fulfilled ++ (m.scheduler.jobs n).abandoned : List T) : Multiset T) ≤
      dependencies := by
  rw [Multiset.le_iff_count]
  intro d
  have counts := accounts.count_le d
  rw [Multiset.coe_count, Multiset.coe_count, List.count_append]
  omega

/-- A job in the list of a loop waits for one dependency at least. -/
theorem Machine.Accounts.unresolved_pos (accounts : m.Accounts n dependencies) {d : T}
    {flag : Bool} (left : n ∈ m.left d flag) : 0 < (m.scheduler.jobs n).numUnresolved := by
  have some := List.count_pos_iff.mpr left
  have counts := accounts.count_le d
  have less : (((m.scheduler.jobs n).fulfilled ++ (m.scheduler.jobs n).abandoned : List T) :
      Multiset T) < dependencies := by
    refine lt_of_le_of_ne accounts.resolved_le ?_
    intro same
    have equal := congrArg (Multiset.count d) same
    rw [Multiset.coe_count, Multiset.coe_count, List.count_append] at equal
    cases flag <;> omega
  have lengths := Multiset.card_lt_card less
  rw [Multiset.coe_card, Multiset.coe_card, List.length_append] at lengths
  have counter := accounts.counter
  omega

/-- A job is executed when it has heard of all its dependencies. -/
theorem Machine.Accounts.executed_iff (accounts : m.Accounts n dependencies) :
    executions m.trace n ≠ [] ↔ (m.scheduler.jobs n).numUnresolved = 0 := by
  rw [accounts.executed]
  split <;> simp_all

/-- The lists of a job are complete when all calls it depends on were made and told it. -/
theorem Machine.Accounts.complete_iff (accounts : m.Accounts n dependencies) :
    ((m.scheduler.jobs n).fulfilled ++ (m.scheduler.jobs n).abandoned).Perm dependencies ↔
      (∀ d ∈ dependencies, (resolution m.trace n d).isSome = true) ∧
        ∀ d flag, n ∉ m.left d flag := by
  rw [List.perm_iff_count]
  constructor
  · intro complete
    constructor
    · intro d member
      have present := List.count_pos_iff.mpr member
      have counts := complete d
      have fulfilled := accounts.resolved d true
      have abandoned := accounts.resolved d false
      simp only [Job.resolved, if_true, Bool.false_eq_true, if_false] at fulfilled abandoned
      by_contra unresolved
      rw [Bool.not_eq_true, Option.isSome_eq_false_iff, Option.isNone_iff_eq_none] at unresolved
      rw [unresolved, if_neg (by simp)] at fulfilled abandoned
      rw [List.count_append] at counts
      omega
    · intro d flag member
      have present := List.count_pos_iff.mpr member
      have counts := complete d
      have bound := accounts.count_le d
      rw [List.count_append] at counts
      cases flag <;> omega
  · rintro ⟨resolved, told⟩ d
    have none := fun flag => List.count_eq_zero.mpr (told d flag)
    have fulfilled := accounts.resolved d true
    have abandoned := accounts.resolved d false
    rw [none, Nat.add_zero] at fulfilled abandoned
    simp only [Job.resolved, if_true, Bool.false_eq_true, if_false] at fulfilled abandoned
    rw [List.count_append, fulfilled, abandoned]
    by_cases member : d ∈ dependencies
    · obtain ⟨flag, known⟩ := Option.isSome_iff_exists.mp (resolved d member)
      cases flag <;> simp [known]
    · simp [List.count_eq_zero.mpr member]

/-- The counter is zero when the lists are complete. -/
theorem Machine.Accounts.counter_eq_zero_iff (accounts : m.Accounts n dependencies) :
    (m.scheduler.jobs n).numUnresolved = 0 ↔
      ((m.scheduler.jobs n).fulfilled ++ (m.scheduler.jobs n).abandoned).Perm dependencies := by
  have counter := accounts.counter
  constructor
  · intro zero
    have size : dependencies.length ≤
        ((m.scheduler.jobs n).fulfilled ++ (m.scheduler.jobs n).abandoned).length := by
      rw [List.length_append]
      omega
    exact Multiset.coe_eq_coe.mp (Multiset.eq_of_le_of_card_le accounts.resolved_le size)
  · intro complete
    have size := complete.length_eq
    rw [List.length_append] at size
    omega

end Accounting

section Steps

variable {m : Machine T}

/-- What a `Schedule` call records. -/
theorem Machine.schedule_trace (dependencies : List T) :
    (m.schedule dependencies).trace = m.trace ++ .scheduled m.calls dependencies ::
      (if dependencies = [] then [.executed m.calls [] []] else []) := by
  unfold Machine.schedule
  cases dependencies with
  | nil => simp
  | cons first rest => simp

/-- Scheduling is one call. -/
theorem Machine.schedule_calls (dependencies : List T) :
    (m.schedule dependencies).calls = m.calls + 1 := by
  unfold Machine.schedule
  dsimp only
  split <;> rfl

/-- Scheduling leaves what the running resolutions still have to do. -/
theorem Machine.schedule_left (dependencies : List T) (d : T) (flag : Bool) :
    (m.schedule dependencies).left d flag = m.left d flag := by
  unfold Machine.schedule
  dsimp only
  split <;> rfl

/-- The new job waits as often as the dependency is listed. -/
theorem Machine.schedule_waiting (dependencies : List T) (n : ℕ) (d : T) :
    ((m.schedule dependencies).scheduler.waiting d).count n =
      (m.scheduler.waiting d).count n + if n = m.calls then dependencies.count d else 0 := by
  unfold Machine.schedule
  dsimp only
  split
  · rename_i empty
    obtain rfl := List.length_eq_zero_iff.mp empty
    simp
  · exact Engine.schedule_waiting _ _ _ _ _

/-- Scheduling leaves how often the other jobs wait. -/
theorem Machine.schedule_waiting_of_ne (dependencies : List T) {n : ℕ} (old : n ≠ m.calls) (d : T) :
    ((m.schedule dependencies).scheduler.waiting d).count n =
      (m.scheduler.waiting d).count n := by
  rw [Machine.schedule_waiting, if_neg old, Nat.add_zero]

/-- Scheduling leaves the other jobs. -/
theorem Machine.schedule_job_of_ne (dependencies : List T) {n : ℕ} (old : n ≠ m.calls) :
    (m.schedule dependencies).scheduler.jobs n = m.scheduler.jobs n := by
  unfold Machine.schedule
  dsimp only
  split
  · rfl
  · rw [schedule_jobs, Function.update_of_ne old]

/-- The new job. -/
theorem Machine.schedule_job (dependencies : List T)
    (fresh : m.scheduler.jobs m.calls = ⟨0, [], []⟩) :
    (m.schedule dependencies).scheduler.jobs m.calls = ⟨dependencies.length, [], []⟩ := by
  unfold Machine.schedule
  dsimp only
  split
  · rename_i empty
    rw [empty]
    exact fresh
  · rw [schedule_jobs, Function.update_self]

/-- Scheduling executes none of the other jobs. -/
theorem Machine.schedule_executions_of_ne (dependencies : List T) {n : ℕ} (old : n ≠ m.calls) :
    executions (m.schedule dependencies).trace n = executions m.trace n := by
  rw [Machine.schedule_trace, executions_append]
  split <;> simp [Event.execution?, Ne.symm old]

/-- The number of the next job has not been given to another. -/
theorem Machine.Consistent.not_schedules (consistent : m.Consistent) :
    ∀ event ∈ m.trace, event.schedules m.calls = false := by
  intro event member
  cases event with
  | scheduled n dependencies =>
    have bound := (consistent.scheduled n dependencies member).1
    simp only [Event.schedules, beq_eq_false_iff_ne]
    omega
  | resolved _ _ => rfl
  | executed _ _ _ => rfl

/-- A job scheduled before is left as it is. -/
theorem Machine.Accounts.schedule {n : ℕ} {recordedDependencies : List T}
    (accounts : m.Accounts n recordedDependencies)
    (before : .scheduled n recordedDependencies ∈ m.trace) (old : n ≠ m.calls)
    (dependencies : List T) : (m.schedule dependencies).Accounts n recordedDependencies := by
  refine accounts.congr ?_ ?_ ?_ ?_ ?_
  · exact Machine.schedule_waiting_of_ne dependencies old
  · intro d flag
    rw [Machine.schedule_left]
  · exact Machine.schedule_job_of_ne dependencies old
  · intro d
    rw [Machine.schedule_trace, resolution_append before]
    split <;> simp [List.findSome?_cons, Event.resolution?]
  · exact Machine.schedule_executions_of_ne dependencies old

/-- The new job waits for all its dependencies, or is executed. -/
theorem Machine.Consistent.schedule_new (consistent : m.Consistent) (dependencies : List T) :
    (m.schedule dependencies).Accounts m.calls dependencies := by
  have unknown := consistent.unscheduled m.calls (Nat.le_refl _)
  have job := Machine.schedule_job dependencies unknown.job
  have unresolved : ∀ d, resolution (m.schedule dependencies).trace m.calls d = none := by
    intro d
    rw [Machine.schedule_trace, resolution_scheduled consistent.not_schedules]
    split <;> simp [Event.resolution?]
  constructor
  · intro d
    rw [Machine.schedule_waiting, unknown.waiting, unresolved]
    simp
  · intro d flag
    rw [job, Machine.schedule_left, unknown.left, unresolved]
    cases flag <;> simp [Job.resolved]
  · rw [job]
    simp
  · rw [job, Machine.schedule_trace, executions_append, unknown.executed]
    cases dependencies with
    | nil => simp [List.filterMap_cons, Event.execution?]
    | cons first rest =>
      have positive : ((first :: rest).length : ℤ) ≠ 0 := by simp; omega
      rw [if_neg positive]
      simp [List.filterMap_cons, Event.execution?]

/-- `Schedule` accounts for the new job and leaves the others as they are. -/
theorem Machine.Consistent.schedule (consistent : m.Consistent) (dependencies : List T) :
    (m.schedule dependencies).Consistent := by
  constructor
  · intro n recordedDependencies recorded
    rw [Machine.schedule_trace, List.mem_append, List.mem_cons] at recorded
    rw [Machine.schedule_calls]
    rcases recorded with before | same | later
    · obtain ⟨bound, accounts⟩ := consistent.scheduled n recordedDependencies before
      exact ⟨by omega, accounts.schedule before (by omega) dependencies⟩
    · obtain ⟨rfl, rfl⟩ := Event.scheduled.inj same
      exact ⟨by omega, consistent.schedule_new recordedDependencies⟩
    · split at later <;> simp at later
  · intro n bound
    rw [Machine.schedule_calls] at bound
    have old : n ≠ m.calls := by omega
    refine (consistent.unscheduled n (by omega)).congr ?_ ?_ ?_ ?_
    · exact Machine.schedule_waiting_of_ne dependencies old
    · intro d flag
      rw [Machine.schedule_left]
    · exact Machine.schedule_job_of_ne dependencies old
    · exact Machine.schedule_executions_of_ne dependencies old

/-- The jobs that a call for a dependency has to tell are those that waited for it. -/
theorem Machine.resolveDependency_left (d : T) (fulfilled : Bool) (other : T) (flag : Bool) :
    (m.resolveDependency d fulfilled).left other flag =
      (if d = other ∧ fulfilled = flag then m.scheduler.waiting d else []) ++
        m.left other flag := by
  simp [Machine.left, Machine.resolveDependency, Frame.left]

/-- The start of a resolution executes nothing. -/
theorem Machine.resolveDependency_executions (d : T) (fulfilled : Bool) (n : ℕ) :
    executions (m.resolveDependency d fulfilled).trace n = executions m.trace n := by
  simp [Machine.resolveDependency, executions_append, Event.execution?]

/-- The start of a resolution takes the jobs that wait for the dependency. -/
theorem Machine.resolveDependency_waiting (d : T) (fulfilled : Bool) (other : T) :
    (m.resolveDependency d fulfilled).scheduler.waiting other =
      if other = d then [] else m.scheduler.waiting other := delete_waiting ..

/-- A call resolves its dependency for the jobs scheduled before, unless it was resolved. -/
theorem Machine.resolveDependency_resolution {n : ℕ} {dependencies : List T}
    (before : .scheduled n dependencies ∈ m.trace) (d : T) (fulfilled : Bool) (other : T) :
    resolution (m.resolveDependency d fulfilled).trace n other =
      (resolution m.trace n other).or (if d = other then some fulfilled else none) := by
  rw [Machine.resolveDependency, resolution_append before, List.findSome?_singleton]
  rfl

/-- A call moves a job that waits for the dependency from the map to its loop. -/
theorem Machine.Accounts.resolveDependency {n : ℕ} {dependencies : List T}
    (accounts : m.Accounts n dependencies) (before : .scheduled n dependencies ∈ m.trace) (d : T)
    (fulfilled : Bool) : (m.resolveDependency d fulfilled).Accounts n dependencies := by
  have resolvedNow := Machine.resolveDependency_resolution before d fulfilled
  refine ⟨?_, ?_, accounts.counter, ?_⟩
  · intro other
    have waiting := accounts.waiting other
    rw [resolvedNow, Machine.resolveDependency_waiting]
    by_cases same : other = d
    · subst same
      cases resolution m.trace n other <;> simp
    · rw [if_neg same, if_neg (Ne.symm same), Option.or_none, waiting]
  · intro other flag
    have waiting := accounts.waiting other
    have resolved := accounts.resolved other flag
    have job : (m.resolveDependency d fulfilled).scheduler.jobs n = m.scheduler.jobs n := rfl
    rw [job, resolvedNow, Machine.resolveDependency_left, List.count_append]
    by_cases same : d = other
    · subst same
      cases earlier : resolution m.trace n d with
      | none =>
        rw [earlier, if_pos rfl] at waiting
        rw [earlier, if_neg (by simp)] at resolved
        by_cases flagged : fulfilled = flag
        · simp [flagged, waiting]
          omega
        · simp [flagged]
          omega
      | some earlierFlag =>
        rw [earlier, if_neg (by simp)] at waiting
        rw [earlier] at resolved
        rw [Option.some_or, ← resolved]
        split <;> simp [waiting]
    · rw [if_neg same, Option.or_none, ← resolved]
      simp [same]
  · rw [Machine.resolveDependency_executions, accounts.executed]
    rfl

/-- A call keeps the account of every job. -/
theorem Machine.Consistent.resolveDependency (consistent : m.Consistent) (d : T)
    (fulfilled : Bool) : (m.resolveDependency d fulfilled).Consistent := by
  constructor
  · intro n dependencies recorded
    have before : .scheduled n dependencies ∈ m.trace := by
      simpa [Machine.resolveDependency] using recorded
    obtain ⟨bound, accounts⟩ := consistent.scheduled n dependencies before
    exact ⟨bound, accounts.resolveDependency before d fulfilled⟩
  · intro n bound
    have unknown := consistent.unscheduled n bound
    refine ⟨?_, ?_, unknown.job, ?_⟩
    · intro other
      rw [Machine.resolveDependency_waiting]
      split
      · rfl
      · exact unknown.waiting other
    · intro other flag
      rw [Machine.resolveDependency_left, List.count_append, unknown.left]
      split
      · rw [unknown.waiting]
      · rfl
    · rw [Machine.resolveDependency_executions, unknown.executed]

section Iteration

variable {d : T} {fulfilled : Bool} {j : ℕ} {rest : List ℕ} {callers : List (Frame T)}

omit [DecidableEq T] in
/-- What an iteration records. -/
theorem Machine.resolveJob_trace :
    (m.resolveJob d fulfilled j rest callers).trace = m.trace ++
      (let job := (m.scheduler.jobs j).resolve d fulfilled
       if job.numUnresolved > 0 then [] else [.executed j job.fulfilled job.abandoned]) := by
  unfold Machine.resolveJob
  dsimp only
  split <;> simp

omit [DecidableEq T] in
/-- Resolving a job is no call. -/
theorem Machine.resolveJob_calls : (m.resolveJob d fulfilled j rest callers).calls = m.calls := by
  unfold Machine.resolveJob
  dsimp only
  split <;> rfl

/-- Resolving a job leaves who waits for what. -/
theorem Machine.resolveJob_waiting (other : T) :
    (m.resolveJob d fulfilled j rest callers).scheduler.waiting other =
      m.scheduler.waiting other := by
  unfold Machine.resolveJob
  dsimp only
  split <;> rfl

omit [DecidableEq T] in
/-- Resolving a job changes this job only. -/
theorem Machine.resolveJob_jobs :
    (m.resolveJob d fulfilled j rest callers).scheduler.jobs =
      Function.update m.scheduler.jobs j ((m.scheduler.jobs j).resolve d fulfilled) := by
  unfold Machine.resolveJob
  dsimp only
  split <;> rfl

/-- An iteration takes its job out of the list of the loop. -/
theorem Machine.resolveJob_left (running : m.stack = .resolving d fulfilled (j :: rest) :: callers)
    (other : T) (flag : Bool) :
    m.left other flag = (if d = other ∧ fulfilled = flag then [j] else []) ++
      (m.resolveJob d fulfilled j rest callers).left other flag := by
  have later : (m.resolveJob d fulfilled j rest callers).left other flag =
      (if d = other ∧ fulfilled = flag then rest else []) ++
        callers.flatMap (Frame.left other flag) := by
    unfold Machine.resolveJob Machine.left
    dsimp only
    split <;> simp [Frame.left]
  rw [later, Machine.left, running, List.flatMap_cons, Frame.left]
  split <;> simp

omit [DecidableEq T] in
/-- The dependency is recorded as fulfilled or abandoned. -/
theorem Job.resolve_resolved (job : Job T) (flag : Bool) :
    (job.resolve d fulfilled).resolved flag =
      job.resolved flag ++ if fulfilled = flag then [d] else [] := by
  unfold Job.resolve Job.resolved
  cases fulfilled <;> cases flag <;> simp

omit [DecidableEq T] in
/-- Another job is not concerned by an iteration. -/
theorem Machine.resolveJob_executions_of_ne {n : ℕ} (other : n ≠ j) :
    executions (m.resolveJob d fulfilled j rest callers).trace n = executions m.trace n := by
  rw [Machine.resolveJob_trace, executions_append]
  dsimp only
  split <;> simp [Event.execution?, Ne.symm other]

/-- An iteration tells its job of the dependency, and executes it when that was the last. -/
theorem Machine.Accounts.resolveJob {dependencies : List T} (accounts : m.Accounts j dependencies)
    (recorded : .scheduled j dependencies ∈ m.trace)
    (running : m.stack = .resolving d fulfilled (j :: rest) :: callers) :
    (m.resolveJob d fulfilled j rest callers).Accounts j dependencies := by
  have left := Machine.resolveJob_left running
  have positive : 0 < (m.scheduler.jobs j).numUnresolved := by
    have here : j ∈ m.left d fulfilled := by
      rw [left]
      simp
    exact accounts.unresolved_pos here
  have job : (m.resolveJob d fulfilled j rest callers).scheduler.jobs j =
      (m.scheduler.jobs j).resolve d fulfilled := by
    rw [Machine.resolveJob_jobs, Function.update_self]
  have same : ∀ other, resolution (m.resolveJob d fulfilled j rest callers).trace j other =
      resolution m.trace j other := by
    intro other
    rw [Machine.resolveJob_trace, resolution_append recorded]
    dsimp only
    split <;> simp [Event.resolution?]
  constructor
  · intro other
    rw [Machine.resolveJob_waiting, same, accounts.waiting]
  · intro other flag
    have resolved := accounts.resolved other flag
    rw [left, List.count_append] at resolved
    rw [job, same, Job.resolve_resolved, List.count_append, ← resolved]
    by_cases matching : d = other ∧ fulfilled = flag
    · simp [matching]
      omega
    · have elsewhere : (if fulfilled = flag then [d] else []).count other = 0 := by
        by_cases flagged : fulfilled = flag
        · have different : d ≠ other := fun same => matching ⟨same, flagged⟩
          simp [flagged, different]
        · simp [flagged]
      rw [if_neg matching, elsewhere]
      simp
  · have counter := accounts.counter
    rw [job]
    unfold Job.resolve
    cases fulfilled <;> simp <;> omega
  · have executed := accounts.executed
    rw [if_neg (by omega)] at executed
    rw [job, Machine.resolveJob_trace, executions_append, executed]
    have counter : ((m.scheduler.jobs j).resolve d fulfilled).numUnresolved =
        (m.scheduler.jobs j).numUnresolved - 1 := by
      unfold Job.resolve
      cases fulfilled <;> rfl
    dsimp only
    by_cases last : ((m.scheduler.jobs j).resolve d fulfilled).numUnresolved > 0
    · rw [if_pos last, if_neg (by omega)]
      rfl
    · rw [if_neg last, if_pos (by omega)]
      simp [Event.execution?]

/-- Resolving the next job keeps all accounts. -/
theorem Machine.Consistent.resolveJob (consistent : m.Consistent)
    (running : m.stack = .resolving d fulfilled (j :: rest) :: callers) :
    (m.resolveJob d fulfilled j rest callers).Consistent := by
  have left_of_ne : ∀ n, n ≠ j → ∀ other flag,
      ((m.resolveJob d fulfilled j rest callers).left other flag).count n =
        (m.left other flag).count n := by
    intro n different other flag
    rw [Machine.resolveJob_left running other flag, List.count_append]
    split <;> simp [Ne.symm different]
  have job_of_ne : ∀ n, n ≠ j → (m.resolveJob d fulfilled j rest callers).scheduler.jobs n =
      m.scheduler.jobs n := by
    intro n different
    rw [Machine.resolveJob_jobs, Function.update_of_ne different]
  constructor
  · intro n dependencies recorded
    have before : .scheduled n dependencies ∈ m.trace := by
      rw [Machine.resolveJob_trace, List.mem_append] at recorded
      rcases recorded with before | now
      · exact before
      · dsimp only at now
        split at now <;> simp at now
    obtain ⟨bound, accounts⟩ := consistent.scheduled n dependencies before
    refine ⟨by rw [Machine.resolveJob_calls]; exact bound, ?_⟩
    by_cases own : n = j
    · subst own
      exact accounts.resolveJob before running
    · refine accounts.congr ?_ (left_of_ne n own) (job_of_ne n own) ?_
        (Machine.resolveJob_executions_of_ne own)
      · intro other
        rw [Machine.resolveJob_waiting]
      · intro other
        rw [Machine.resolveJob_trace, resolution_append before]
        dsimp only
        split <;> simp [Event.resolution?]
  · intro n bound
    rw [Machine.resolveJob_calls] at bound
    have unknown := consistent.unscheduled n bound
    have own : n ≠ j := by
      rintro rfl
      have none := unknown.left d fulfilled
      rw [Machine.resolveJob_left running, if_pos ⟨rfl, rfl⟩] at none
      simp at none
    refine unknown.congr ?_ (left_of_ne n own) (job_of_ne n own)
      (Machine.resolveJob_executions_of_ne own)
    intro other
    rw [Machine.resolveJob_waiting]

end Iteration

/-- A call that has nothing left to tell may return. -/
theorem Machine.Consistent.return (consistent : m.Consistent) {frame : Frame T}
    {callers : List (Frame T)} (running : m.stack = frame :: callers)
    (finished : ∀ d flag, frame.left d flag = []) :
    ({ m with stack := callers } : Machine T).Consistent := by
  have same : ∀ d flag, ({ m with stack := callers } : Machine T).left d flag = m.left d flag := by
    intro d flag
    rw [Machine.left, Machine.left, running, List.flatMap_cons, finished, List.nil_append]
  constructor
  · intro n dependencies recorded
    obtain ⟨bound, accounts⟩ := consistent.scheduled n dependencies recorded
    exact ⟨bound, accounts.congr (fun _ => rfl) (fun d flag => by rw [same]) rfl (fun _ => rfl) rfl⟩
  · intro n bound
    exact (consistent.unscheduled n bound).congr (fun _ => rfl) (fun d flag => by rw [same]) rfl rfl

/-- The jobs are accounted for after every step in which no `Execute` fails. -/
theorem step_consistent (m : Machine T) (action : Action T) (succeeds : action ≠ .finish true)
    (consistent : m.Consistent) : (m.step action).Consistent := by
  cases action with
  | schedule dependencies =>
    simp only [Machine.step]
    split
    · exact consistent.schedule dependencies
    · exact consistent
  | fulfill dependency =>
    simp only [Machine.step]
    split
    · exact consistent.resolveDependency dependency true
    · exact consistent
  | abandon dependency =>
    simp only [Machine.step]
    split
    · exact consistent.resolveDependency dependency false
    · exact consistent
  | iterate =>
    simp only [Machine.step]
    split
    · rename_i running
      exact consistent.resolveJob running
    · rename_i running
      refine consistent.return running ?_
      intro d flag
      simp [Frame.left]
    · exact consistent
  | finish failed =>
    obtain rfl : failed = false := by simpa using succeeds
    simp only [Machine.step]
    split
    · rename_i running
      exact consistent.return running (fun _ _ => rfl)
    · exact consistent

end Steps

/-- Every job is executed at most once: when each of its dependencies has been resolved by a call
made after it was scheduled and no such call has still to come to it. It is given its
dependencies, each in the list for the first call that resolved it. -/
theorem scheduler_executes_once (actions : List (Action T))
    (succeeds : ∀ action ∈ actions, action ≠ .finish true) :
    let m := run Machine.step (Machine.start : Machine T) actions
    ∀ n dependencies, .scheduled n dependencies ∈ m.trace →
      (executions m.trace n).length ≤ 1 ∧
      (executions m.trace n ≠ [] ↔
        (∀ d ∈ dependencies, (resolution m.trace n d).isSome = true) ∧
          ∀ d flag, n ∉ m.left d flag) ∧
      (m.stack = [] → (executions m.trace n ≠ [] ↔
        ∀ d ∈ dependencies, (resolution m.trace n d).isSome = true)) ∧
      ∀ fulfilled abandoned, (fulfilled, abandoned) ∈ executions m.trace n →
        (fulfilled ++ abandoned).Perm dependencies ∧
        ∀ d, fulfilled.count d =
            (if resolution m.trace n d = some true then dependencies.count d else 0) ∧
          abandoned.count d =
            (if resolution m.trace n d = some false then dependencies.count d else 0) := by
  intro m n dependencies recorded
  have consistent : m.Consistent := Along.invariant Machine.step Machine.Consistent
    step_consistent (Along.of_forall Machine.step Machine.start succeeds) start_consistent
  obtain ⟨_, accounts⟩ := consistent.scheduled n dependencies recorded
  have exactly : executions m.trace n ≠ [] ↔
      (∀ d ∈ dependencies, (resolution m.trace n d).isSome = true) ∧
        ∀ d flag, n ∉ m.left d flag := by
    rw [accounts.executed_iff, accounts.counter_eq_zero_iff, accounts.complete_iff]
  refine ⟨?_, exactly, ?_, ?_⟩
  · rw [accounts.executed]
    split <;> simp
  · intro idle
    rw [exactly]
    refine and_iff_left ?_
    intro d flag
    rw [Machine.left, idle]
    simp
  · intro fulfilled abandoned member
    have executed := List.ne_nil_of_mem member
    have zero := accounts.executed_iff.mp executed
    rw [accounts.executed, if_pos zero, List.mem_singleton, Prod.mk.injEq] at member
    obtain ⟨rfl, rfl⟩ := member
    refine ⟨accounts.counter_eq_zero_iff.mp zero, ?_⟩
    intro d
    have told := fun flag => List.count_eq_zero.mpr ((exactly.mp executed).2 d flag)
    have fulfilled := accounts.resolved d true
    have abandoned := accounts.resolved d false
    rw [told, Nat.add_zero] at fulfilled abandoned
    exact ⟨fulfilled, abandoned⟩

/-- Two jobs wait for dependency 1, the first twice and for dependency 2 as well. The second,
when it runs, abandons dependency 2. -/
theorem scheduler_executes_once_nested :
    let actions : List (Action ℕ) := [.schedule [1, 2, 1], .schedule [1], .fulfill 1, .iterate,
      .iterate, .iterate, .abandon 2, .iterate]
    let m := run Machine.step (Machine.start : Machine ℕ) actions
    executions m.trace 0 = [([1, 1], [2])] ∧ ([1, 1] ++ [2]).Perm [1, 2, 1] := by
  intro actions m
  have once := scheduler_executes_once actions (by decide) 0 [1, 2, 1] (by decide)
  have executed : executions m.trace 0 = [([1, 1], [2])] := by decide
  exact ⟨executed, (once.2.2.2 [1, 1] [2] (by rw [executed]; simp)).1⟩

end AvalancheParallel.Engine
