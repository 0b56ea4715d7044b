import AvalancheParallel.Engine.JobAccounts
import AvalancheParallel.Engine.VoteBubbling

/-!
# No job waits in vain

A job of the engine waits for blocks. When no call is in progress, each block that a job waits
for is pending or requested from a peer, and a pending block has a job that waits for its parent.
Going from parent to parent one therefore comes to a block with an outstanding request, whose
answer or failure resolves the dependency. So the scheduler's dependencies are all resolved in
the end, as it demands of its users, provided that every request is answered or fails.

During a call a dependency may be neither: it is then resolved, issued or requested by one of the
tasks on the stack. Requests are numbered by a 32-bit word, which is assumed not to come round.
-/

namespace AvalancheParallel.SnowmanEngine

open AvalancheParallel.Ids
open AvalancheParallel.RangeLoop
open AvalancheParallel.Runs
open AvalancheParallel.Engine (Numbered Asked Scheduler asked_put asked_iff_hasValue)
open AvalancheParallel.Utils (SetReading)
open AvalancheParallel.Snowball
open AvalancheParallel.Snowman (Block Topological Lineage)

variable {F : Factory}

/-- A job waits for the block. -/
def Waits (e : Engine F) (id : ID) : Prop := ∃ j, j ∈ e.blocked.waiting id

/-- The task resolves, issues or requests the block, or finds out that there is no need to. -/
def Task.Settles (id : ID) : Task → Prop
  | .resolve dependency _ => dependency = id
  | .issueFromByID _ blkID => blkID = id
  | .issueFrom _ blkID _ => blkID = id
  | .issueWithAncestors blkID _ => blkID = id
  | .issueParent blkID => blkID = id
  | _ => False

/-- The task comes to the job. -/
def Task.Visits (j : ℕ) : Task → Prop
  | .visit _ _ jobs => j ∈ jobs
  | _ => False

/-- The task is done inside the scheduler and schedules nothing. -/
def Task.Internal : Task → Prop
  | .resolve _ _ => True
  | .visit _ _ _ => True
  | .addedOption _ => True
  | .droppedOption _ => True
  | .dropRequest _ => True
  | .repollUnlessIdle => True
  | _ => False

/-- The block is pending, requested, or settled by a task. -/
def Covered (e : Engine F) (stack : List Task) (id : ID) : Prop :=
  id ∈ e.pending ∨ Asked e.blkReqs id ∨ ∃ task ∈ stack, task.Settles id

/-- The job will issue the block: it waits for the parent, or a task comes to it. -/
def Issues (l : Lineage) (e : Engine F) (stack : List Task) (id : ID) (j : ℕ) : Prop :=
  (∃ blk, e.jobs[j]? = some (.issuer blk) ∧ blk.id = id) ∧
    (e.blocked.jobs j).numUnresolved ≤ 1 ∧
    (j ∈ e.blocked.waiting (l.parent id) ∨ ∃ task ∈ stack, task.Visits j)

/-- Before a request is removed the waiting jobs are told that the block was resolved, and nothing
in between makes others wait. -/
def Drops (e : Engine F) (stack : List Task) : Prop :=
  ∀ above id below, stack = above ++ .dropRequest id :: below →
    (∀ task ∈ above, task.Internal) ∧ (Waits e id → ∃ flag, .resolve id flag ∈ above)

/-- What every step keeps. -/
structure Lively (l : Lineage) (e : Engine F) (stack : List Task) : Prop where
  numbered : Numbered e.requestID e.blkReqs
  covered : ∀ id, Waits e id → Covered e stack id
  issuers : ∀ id ∈ e.pending, ∃ j, Issues l e stack id j
  drops : Drops e stack

/-! ## What the functions leave as it is -/

/-- Nothing but consensus, the polls and the ancestor tree changed. -/
structure Frame (before after : Engine F) : Prop where
  requestID : before.requestID ≤ after.requestID
  blkReqs : after.blkReqs = before.blkReqs
  pending : after.pending = before.pending
  blocked : after.blocked = before.blocked
  jobs : after.jobs = before.jobs

/-- Nothing changes without a step. -/
theorem Frame.refl (e : Engine F) : Frame e e := ⟨Nat.le_refl _, rfl, rfl, rfl, rfl⟩

/-- Two steps that leave the jobs, one after the other. -/
theorem Frame.trans {first second third : Engine F} (one : Frame first second)
    (other : Frame second third) : Frame first third :=
  ⟨one.requestID.trans other.requestID, other.blkReqs.trans one.blkReqs,
    other.pending.trans one.pending, other.blocked.trans one.blocked,
    other.jobs.trans one.jobs⟩

section Frames

variable {e after : Engine F} {answers : Answers}

/-- A query leaves the jobs and the requests for blocks. -/
theorem sendQuery_frame (answers : Answers) (e : Engine F) : Frame e (e.sendQuery answers) := by
  unfold Engine.sendQuery
  split
  · exact Frame.refl e
  · exact ⟨Nat.le_succ _, rfl, rfl, rfl, rfl⟩

/-- Repolling leaves the jobs and the requests for blocks. -/
theorem repoll_frame (answers : Answers) (e : Engine F) : Frame e (e.repoll answers) := by
  unfold Engine.repoll
  generalize (e.consensus.params.concurrentRepolls - e.polls.polls.entries.length).toNat = count
  induction count generalizing e with
  | zero => exact Frame.refl e
  | succ count inductionHypothesis =>
    rw [Function.iterate_succ_apply]
    exact (sendQuery_frame answers e).trans (inductionHypothesis _)

/-- So does a query for a preferred block. -/
theorem queryIfPreferred_frame (answers : Answers) (e : Engine F) (blk : Block) :
    Frame e (e.queryIfPreferred answers blk) := by
  unfold Engine.queryIfPreferred
  split
  · exact sendQuery_frame answers e
  · exact Frame.refl e

/-- So does adding a block to the ancestor tree. -/
theorem markAsUnverified_frame {blk : Block}
    (result : e.markAsUnverified answers blk = some after) : Frame e after := by
  unfold Engine.markAsUnverified at result
  split at result
  · cases result
    exact Frame.refl e
  · split at result
    · split at result
      · cases result
      · cases result
        exact ⟨Nat.le_refl _, rfl, rfl, rfl, rfl⟩
    · cases result
      exact Frame.refl e

/-- So does adding a block to consensus. -/
theorem addUnverifiedBlockToConsensus_frame {blk : Block} {added : Bool}
    (result : e.addUnverifiedBlockToConsensus answers blk = some (after, added)) :
    Frame e after := by
  unfold Engine.addUnverifiedBlockToConsensus at result
  split at result
  · split at result
    · cases result
    · rename_i marking
      cases result
      exact markAsUnverified_frame marking
  · split at result
    · cases result
    · cases result
      exact ⟨Nat.le_refl _, rfl, rfl, rfl, rfl⟩

/-- So does adding the options of a block. -/
theorem addOptions_frame {options added dropped allAdded allDropped : List Block}
    (result : Engine.addOptions answers options e added dropped =
      some (after, allAdded, allDropped)) : Frame e after := by
  induction options generalizing e added dropped with
  | nil =>
    cases result
    exact Frame.refl _
  | cons blk rest inductionHypothesis =>
    unfold Engine.addOptions at result
    split at result
    · cases result
    · rename_i next adding
      exact (addUnverifiedBlockToConsensus_frame adding).trans (inductionHypothesis result)
    · rename_i next dropping
      exact (addUnverifiedBlockToConsensus_frame dropping).trans (inductionHypothesis result)

/-- So does recording the result of a poll. -/
theorem recordPoll_frame {bag : Multiset ID} (result : e.recordPoll answers bag = some after) :
    Frame e after := by
  unfold Engine.recordPoll at result
  split at result
  · cases result
  · simp only at result
    split at result
    · cases result
    · cases result
      exact ⟨Nat.le_refl _, rfl, rfl, rfl, rfl⟩

/-- So does recording the results of several polls. -/
theorem recordPolls_frame {bags : List (Multiset ID)}
    (result : bags.foldlM (Engine.recordPoll answers) e = some after) : Frame e after := by
  induction bags generalizing e with
  | nil =>
    cases result
    exact Frame.refl _
  | cons bag rest inductionHypothesis =>
    rw [List.foldlM_cons, Option.bind_eq_bind, Option.bind_eq_some_iff] at result
    obtain ⟨next, first, later⟩ := result
    exact (recordPoll_frame first).trans (inductionHypothesis later)

/-- So does executing a voter. -/
theorem executeVoter_frame {nodeID : ShortID} {requestID : UInt32} {responseOptions : List ID}
    (result : e.executeVoter answers nodeID requestID responseOptions = some after) :
    Frame e after := by
  unfold Engine.executeVoter at result
  split at result
  · cases result
  · simp only at result
    have answered : ∀ polls, Frame e { e with polls := polls } :=
      fun polls => ⟨Nat.le_refl _, rfl, rfl, rfl, rfl⟩
    split at result
    · cases result
      exact answered _
    · split at result
      · cases result
      · rename_i next recording
        have recorded := (answered _).trans (recordPolls_frame recording)
        split at result
        · cases result
        · split at result
          · cases result
            exact recorded
          · cases result
            exact recorded.trans (repoll_frame answers next)

end Frames

/-! ## Executing and scheduling jobs -/

/-- The block that a job issues. -/
def EngineJob.issues : EngineJob → Option ID
  | .issuer blk => some blk.id
  | .voter _ _ _ => none

/-- The task is done inside the scheduler and removes no request. -/
def Task.Plain (task : Task) : Prop := task.Internal ∧ ∀ id, task ≠ .dropRequest id

/-- A job was executed: the block it was to issue is no longer pending and will be resolved. -/
structure Executed (job : EngineJob) (before after : Engine F) (tasks : List Task) : Prop where
  requestID : before.requestID ≤ after.requestID
  blkReqs : after.blkReqs = before.blkReqs
  blocked : after.blocked = before.blocked
  jobs : after.jobs = before.jobs
  pending : ∀ id, id ∈ after.pending ↔ id ∈ before.pending ∧ job.issues ≠ some id
  settles : ∀ id, job.issues = some id → ∃ flag, .resolve id flag ∈ tasks
  plain : ∀ task ∈ tasks, task.Plain

section Executing

variable {e after : Engine F} {answers : Answers} {tasks : List Task}

/-- The block is taken out of the pending ones, and the tasks begin with its resolution. -/
theorem executed_issuer {blk : Block} {flag : Bool}
    (frame : Frame { e with pending := e.pending.erase blk.id } after)
    (first : .resolve blk.id flag ∈ tasks) (plain : ∀ task ∈ tasks, task.Plain) :
    Executed (.issuer blk) e after tasks := by
  refine ⟨frame.requestID, frame.blkReqs, frame.blocked, frame.jobs, ?_, ?_, plain⟩
  · intro id
    have issues : (EngineJob.issuer blk).issues = some blk.id := rfl
    rw [frame.pending, Finmap.mem_erase, issues, ne_eq, ne_eq, Option.some.injEq, and_comm, eq_comm]
  · intro id same
    exact ⟨flag, Option.some.inj same ▸ first⟩

/-- Resolving a dependency is a plain task. -/
theorem resolve_plain (id : ID) (flag : Bool) : ∀ task ∈ [Task.resolve id flag], task.Plain := by
  intro task member
  rw [List.mem_singleton.mp member]
  exact ⟨trivial, by simp⟩

/-- Coming to waiting jobs is a plain task. -/
theorem visit_plain (id : ID) (flag : Bool) (jobs : List ℕ) :
    ∀ task ∈ [Task.visit id flag jobs], task.Plain := by
  intro task member
  rw [List.mem_singleton.mp member]
  exact ⟨trivial, by simp⟩

/-- Delivering a block resolves it for the jobs that wait. -/
theorem deliver_executed {blk : Block} (result : e.deliver answers blk = some (after, tasks)) :
    Executed (.issuer blk) e after tasks := by
  unfold Engine.deliver at result
  simp only at result
  split at result
  · cases result
    exact executed_issuer (Frame.refl _) List.mem_cons_self (resolve_plain _ _)
  · split at result
    · cases result
    · rename_i next adding
      cases result
      exact executed_issuer (addUnverifiedBlockToConsensus_frame adding) List.mem_cons_self
        (resolve_plain _ _)
    · rename_i next adding
      split at result
      · cases result
      · split at result
        · cases result
        · rename_i final added dropped options
          split at result
          · cases result
          · cases result
            refine executed_issuer ((addUnverifiedBlockToConsensus_frame adding).trans
              ((addOptions_frame options).trans (queryIfPreferred_frame answers final blk)))
              List.mem_cons_self ?_
            intro task member
            simp only [List.mem_cons, List.mem_append, List.mem_map, List.not_mem_nil,
              or_false] at member
            rcases member with rfl | (⟨option, _, rfl⟩ | ⟨option, _, rfl⟩) | rfl
            · exact ⟨trivial, by simp⟩
            · exact ⟨trivial, by simp⟩
            · exact ⟨trivial, by simp⟩
            · exact ⟨trivial, by simp⟩

/-- Executing a job resolves its block for the jobs that wait. -/
theorem execute_executed {job : EngineJob} {abandoned : List ID}
    (result : e.execute answers abandoned job = some (after, tasks)) :
    Executed job e after tasks := by
  cases job with
  | issuer blk =>
    unfold Engine.execute at result
    simp only at result
    split at result
    · exact deliver_executed result
    · split at result
      · cases result
      · rename_i marking
        cases result
        exact executed_issuer (markAsUnverified_frame marking) List.mem_cons_self
          (resolve_plain _ _)
  | voter nodeID requestID responseOptions =>
    unfold Engine.execute at result
    simp only at result
    split at result
    · cases result
    · rename_i next voted
      cases result
      have frame := executeVoter_frame voted
      refine ⟨frame.requestID, frame.blkReqs, frame.blocked, frame.jobs, ?_, ?_, ?_⟩
      · intro id
        rw [frame.pending]
        simp [EngineJob.issues]
      · intro id impossible
        cases impossible
      · exact fun task impossible => absurd impossible List.not_mem_nil

end Executing

/-- As `Lively`, but the block of a job that is to be executed or scheduled is left out. -/
structure LivelyBut (l : Lineage) (job : EngineJob) (e : Engine F) (stack : List Task) :
    Prop where
  numbered : Numbered e.requestID e.blkReqs
  covered : ∀ id, Waits e id → Covered e stack id
  issuers : ∀ id ∈ e.pending, job.issues ≠ some id → ∃ j, Issues l e stack id j
  drops : Drops e stack

section Lively

variable {l : Lineage} {e after : Engine F} {answers : Answers} {tasks stack : List Task}

/-- More tasks cover more. -/
theorem Covered.append {id : ID} (first : List Task) (covered : Covered e stack id) :
    Covered e (first ++ stack) id := by
  refine covered.imp_right (Or.imp_right ?_)
  rintro ⟨task, member, settles⟩
  exact ⟨task, List.mem_append_right _ member, settles⟩

/-- More tasks do not keep a job from issuing its block. -/
theorem Issues.append {id : ID} {j : ℕ} (first : List Task) (issues : Issues l e stack id j) :
    Issues l e (first ++ stack) id j := by
  refine ⟨issues.1, issues.2.1, issues.2.2.imp_right ?_⟩
  rintro ⟨task, member, visits⟩
  exact ⟨task, List.mem_append_right _ member, visits⟩

/-- Tasks that remove no request are put on the stack. -/
theorem Drops.append {first : List Task} (plain : ∀ task ∈ first, task.Plain)
    (drops : Drops e stack) : Drops e (first ++ stack) := by
  intro above id below same
  rcases List.append_eq_append_iff.mp same with ⟨more, rfl, rest⟩ | ⟨more, rfl, rest⟩
  · obtain ⟨internal, resolved⟩ := drops more id below rest
    refine ⟨?_, fun waits => ?_⟩
    · intro task member
      cases List.mem_append.mp member with
      | inl new => exact (plain task new).1
      | inr old => exact internal task old
    · obtain ⟨flag, member⟩ := resolved waits
      exact ⟨flag, List.mem_append_right _ member⟩
  · cases more with
    | nil =>
      obtain ⟨_, resolved⟩ := drops [] id below rest.symm
      refine ⟨fun task member => (plain task (by simpa using member)).1, fun waits => ?_⟩
      obtain ⟨flag, impossible⟩ := resolved waits
      cases impossible
    | cons next more =>
      obtain ⟨rfl, _⟩ := List.cons.inj rest
      exact absurd rfl ((plain (.dropRequest id) (by simp)).2 id)

/-- A job is executed. -/
theorem LivelyBut.execute {job : EngineJob} (lively : LivelyBut l job e stack)
    (executed : Executed job e after tasks) : Lively l after (tasks ++ stack) := by
  have sameWaits : ∀ id, Waits after id → Waits e id := by
    rintro id ⟨j, member⟩
    rw [executed.blocked] at member
    exact ⟨j, member⟩
  constructor
  case numbered =>
    rw [executed.blkReqs]
    exact lively.numbered.mono executed.requestID
  case covered =>
    intro id waits
    rcases lively.covered id (sameWaits id waits) with pending | asked | ⟨task, member, settles⟩
    · by_cases own : job.issues = some id
      · obtain ⟨flag, first⟩ := executed.settles id own
        exact Or.inr (Or.inr ⟨_, List.mem_append_left _ first, rfl⟩)
      · exact Or.inl ((executed.pending id).mpr ⟨pending, own⟩)
    · refine Or.inr (Or.inl ?_)
      rw [executed.blkReqs]
      exact asked
    · exact Or.inr (Or.inr ⟨task, List.mem_append_right _ member, settles⟩)
  case issuers =>
    intro id pending
    obtain ⟨before, other⟩ := (executed.pending id).mp pending
    obtain ⟨j, issues⟩ := lively.issuers id before other
    refine ⟨j, ?_⟩
    unfold Issues
    rw [executed.jobs, executed.blocked]
    exact issues.append tasks
  case drops =>
    have moved : Drops after stack := by
      intro above id below same
      obtain ⟨internal, resolved⟩ := lively.drops above id below same
      exact ⟨internal, fun waits => resolved (sameWaits id waits)⟩
    exact moved.append executed.plain

/-- Which jobs wait after one was scheduled. -/
theorem mem_waiting_schedule (s : Scheduler ID) (j n : ℕ) (dependencies : List ID) (id : ID) :
    n ∈ (s.schedule j dependencies).waiting id ↔
      n ∈ s.waiting id ∨ n = j ∧ id ∈ dependencies := by
  rw [← List.count_pos_iff, Engine.schedule_waiting, ← List.count_pos_iff, ← List.count_pos_iff]
  split
  · rename_i same
    rw [Nat.add_pos_iff_pos_or_pos]
    simp [same]
  · rename_i different
    simp [different]

/-- A job is scheduled while no request is to be removed. -/
theorem LivelyBut.schedule {job : EngineJob} (lively : LivelyBut l job e stack)
    {dependencies : List ID} (depends : ∀ id ∈ dependencies, Covered e stack id)
    (parent : ∀ blk, job = .issuer blk → dependencies = [] ∨ dependencies = [l.parent blk.id])
    (idle : ∀ id, .dropRequest id ∉ stack)
    (result : e.schedule answers job dependencies = some (after, tasks)) :
    Lively l after (tasks ++ stack) := by
  unfold Engine.schedule at result
  split at result
  · exact lively.execute (execute_executed result)
  · rename_i some
    cases result
    constructor
    case numbered => exact lively.numbered
    case covered =>
      rintro id ⟨j, member⟩
      have covered : Covered e stack id := by
        rcases (mem_waiting_schedule _ _ _ _ _).mp member with before | ⟨_, listed⟩
        · exact lively.covered id ⟨j, before⟩
        · exact depends id listed
      exact covered
    case issuers =>
      intro id pending
      by_cases own : job.issues = Option.some id
      · cases job with
        | voter nodeID requestID responseOptions => cases own
        | issuer blk =>
          obtain rfl := Option.some.inj own
          have only := (parent blk rfl).resolve_left (fun none => some (by rw [none]; rfl))
          refine ⟨e.jobs.length, ⟨blk, by simp, rfl⟩, ?_, Or.inl ?_⟩
          · simp only
            rw [Engine.schedule_jobs, Function.update_self, only]
            exact Int.le_refl 1
          · simp only
            rw [mem_waiting_schedule, only]
            exact Or.inr ⟨rfl, List.mem_singleton_self _⟩
      · obtain ⟨j, ⟨blk, found, same⟩, single, waits⟩ := lively.issuers id pending own
        obtain ⟨inside, _⟩ := List.getElem?_eq_some_iff.mp found
        refine ⟨j, ⟨blk, ?_, same⟩, ?_, ?_⟩
        · simp only
          rw [List.getElem?_append_left inside]
          exact found
        · simp only
          rw [Engine.schedule_jobs, Function.update_of_ne (Nat.ne_of_lt inside)]
          exact single
        · refine waits.imp_left (fun member => ?_)
          simp only
          rw [mem_waiting_schedule]
          exact Or.inl member
    case drops =>
      rintro above id below rfl
      exact absurd (List.mem_append_right _ List.mem_cons_self) (idle id)

/-! ## The tasks -/

variable {task : Task} {rest : List Task}

/-- Under a task that is not internal no request is to be removed. -/
theorem Drops.idle (drops : Drops e (task :: rest)) (outer : ¬ task.Internal) (id : ID) :
    .dropRequest id ∉ rest := by
  intro member
  obtain ⟨above, below, rfl⟩ := List.append_of_mem member
  exact outer ((drops (task :: above) id below rfl).1 task List.mem_cons_self)

/-- Without a request to remove there is nothing to show. -/
theorem drops_of_idle (idle : ∀ id, .dropRequest id ∉ stack) : Drops e stack := by
  rintro above id below rfl
  exact absurd (List.mem_append_right _ List.mem_cons_self) (idle id)

/-- The first task is done, and makes no job wait. -/
theorem Drops.tail (drops : Drops e (task :: rest))
    (fewer : ∀ id, Waits after id → Waits e id ∧ ∀ flag, task ≠ .resolve id flag) :
    Drops after rest := by
  rintro above id below rfl
  obtain ⟨internal, resolved⟩ := drops (task :: above) id below rfl
  refine ⟨fun other member => internal other (List.mem_cons_of_mem _ member), fun waits => ?_⟩
  obtain ⟨before, other⟩ := fewer id waits
  obtain ⟨flag, member⟩ := resolved before
  exact ⟨flag, (List.mem_cons.mp member).resolve_left (fun same => other flag same.symm)⟩

/-- A task is replaced by others that settle the same blocks. -/
theorem Lively.replace (lively : Lively l e (task :: rest)) (first : List Task)
    (settled : ∀ id, task.Settles id → Covered e (first ++ rest) id)
    (blind : ∀ j, ¬ task.Visits j) (drops : Drops e (first ++ rest)) :
    Lively l e (first ++ rest) := by
  refine ⟨lively.numbered, ?_, ?_, drops⟩
  · intro id waits
    rcases lively.covered id waits with pending | asked | ⟨other, member, settles⟩
    · exact Or.inl pending
    · exact Or.inr (Or.inl asked)
    · cases List.mem_cons.mp member with
      | inl same => exact settled id (same ▸ settles)
      | inr inside => exact Or.inr (Or.inr ⟨other, List.mem_append_right _ inside, settles⟩)
  · intro id pending
    obtain ⟨j, known, single, waits⟩ := lively.issuers id pending
    refine ⟨j, known, single, waits.imp_right ?_⟩
    rintro ⟨other, member, visits⟩
    cases List.mem_cons.mp member with
    | inl same => exact absurd (same ▸ visits) (blind j)
    | inr inside => exact ⟨other, List.mem_append_right _ inside, visits⟩

/-- A task that settles no block and comes to no job is done. -/
theorem Lively.pop (lively : Lively l e (task :: rest)) (settlesNone : ∀ id, ¬ task.Settles id)
    (blind : ∀ j, ¬ task.Visits j) : Lively l e rest := by
  apply lively.replace []
  · exact fun id settles => absurd settles (settlesNone id)
  · exact blind
  · apply lively.drops.tail
    refine fun id waits => ⟨waits, ?_⟩
    rintro flag rfl
    exact settlesNone id rfl

/-- Steps that leave the jobs keep the invariant. -/
theorem Lively.frame (frame : Frame e after) (lively : Lively l e stack) :
    Lively l after stack := by
  obtain ⟨later, blkReqs, pending, blocked, jobs⟩ := frame
  have sameWaits : ∀ id, Waits after id → Waits e id := by
    rintro id ⟨j, member⟩
    rw [blocked] at member
    exact ⟨j, member⟩
  refine ⟨?_, ?_, ?_, ?_⟩
  · rw [blkReqs]
    exact lively.numbered.mono later
  · intro id waits
    unfold Covered
    rw [pending, blkReqs]
    exact lively.covered id (sameWaits id waits)
  · intro id member
    rw [pending] at member
    obtain ⟨j, issues⟩ := lively.issuers id member
    refine ⟨j, ?_⟩
    unfold Issues
    rw [jobs, blocked]
    exact issues
  · intro above id below same
    obtain ⟨internal, resolved⟩ := lively.drops above id below same
    exact ⟨internal, fun waits => resolved (sameWaits id waits)⟩

/-- The invariant holds without regard to one job. -/
theorem Lively.but (lively : Lively l e stack) (job : EngineJob) : LivelyBut l job e stack :=
  ⟨lively.numbered, lively.covered, fun id pending _ => lively.issuers id pending, lively.drops⟩

/-- `resolveDependency` begins. -/
theorem Lively.resolve {dependency : ID} {fulfilled : Bool}
    (lively : Lively l e (.resolve dependency fulfilled :: rest)) :
    Lively l { e with blocked := e.blocked.delete dependency }
      (.visit dependency fulfilled (e.blocked.waiting dependency) :: rest) := by
  have fewer : ∀ id, Waits { e with blocked := e.blocked.delete dependency } id →
      id ≠ dependency ∧ Waits e id := by
    rintro id ⟨j, member⟩
    simp only at member
    rw [Engine.delete_waiting] at member
    split at member
    · cases member
    · rename_i different
      exact ⟨different, j, member⟩
  constructor
  case numbered => exact lively.numbered
  case covered =>
    intro id waits
    obtain ⟨different, before⟩ := fewer id waits
    rcases lively.covered id before with pending | asked | ⟨other, member, settles⟩
    · exact Or.inl pending
    · exact Or.inr (Or.inl asked)
    · cases List.mem_cons.mp member with
      | inl same =>
        rw [same] at settles
        exact absurd settles.symm different
      | inr inside => exact Or.inr (Or.inr ⟨other, List.mem_cons_of_mem _ inside, settles⟩)
  case issuers =>
    intro id pending
    obtain ⟨j, known, single, waits⟩ := lively.issuers id pending
    refine ⟨j, known, single, ?_⟩
    rcases waits with member | ⟨other, member, visits⟩
    · by_cases same : l.parent id = dependency
      · rw [same] at member
        exact Or.inr ⟨_, List.mem_cons_self, member⟩
      · left
        simp only
        rw [Engine.delete_waiting, if_neg same]
        exact member
    · cases List.mem_cons.mp member with
      | inl same =>
        rw [same] at visits
        exact visits.elim
      | inr inside => exact Or.inr ⟨other, List.mem_cons_of_mem _ inside, visits⟩
  case drops =>
    have tail : Drops { e with blocked := e.blocked.delete dependency } rest := by
      apply lively.drops.tail
      intro id waits
      obtain ⟨different, before⟩ := fewer id waits
      refine ⟨before, fun flag same => ?_⟩
      cases same
      exact different rfl
    exact Drops.append (visit_plain _ _ _) tail

/-- A job that is not the one the loop came to is still visited. -/
theorem Issues.skip {dependency id : ID} {fulfilled : Bool} {j n : ℕ} {others : List ℕ}
    (issues : Issues l e (.visit dependency fulfilled (j :: others) :: rest) id n)
    (different : n ≠ j) (job : Engine.Job ID) :
    Issues l { e with blocked := { e.blocked with jobs := Function.update e.blocked.jobs j job } }
      (.visit dependency fulfilled others :: rest) id n := by
  obtain ⟨known, single, waits⟩ := issues
  refine ⟨known, ?_, ?_⟩
  · simp only
    rw [Function.update_of_ne different]
    exact single
  · refine waits.imp_right ?_
    rintro ⟨task, member, visits⟩
    cases List.mem_cons.mp member with
    | inl same =>
      rw [same] at visits
      exact ⟨_, List.mem_cons_self, (List.mem_cons.mp visits).resolve_left different⟩
    | inr inside => exact ⟨task, List.mem_cons_of_mem _ inside, visits⟩

/-- The loop of `resolveDependency` comes to a job. -/
theorem Lively.visit {dependency : ID} {fulfilled : Bool} {j : ℕ} {others : List ℕ}
    (lively : Lively l e (.visit dependency fulfilled (j :: others) :: rest))
    (result : e.visitJob answers dependency fulfilled j = some (after, tasks)) :
    Lively l after (tasks ++ .visit dependency fulfilled others :: rest) := by
  unfold Engine.visitJob at result
  simp only at result
  generalize updated : { e with blocked := { e.blocked with
    jobs := Function.update e.blocked.jobs j ((e.blocked.jobs j).resolve dependency fulfilled) } } =
      next at result
  have counted : ((e.blocked.jobs j).resolve dependency fulfilled).numUnresolved =
      (e.blocked.jobs j).numUnresolved - 1 := by
    unfold Engine.Job.resolve
    split
    · rfl
    · rfl
  have numbered : Numbered next.requestID next.blkReqs := by
    rw [← updated]
    exact lively.numbered
  have covered :
      ∀ id, Waits next id → Covered next (.visit dependency fulfilled others :: rest) id := by
    rw [← updated]
    intro id waits
    rcases lively.covered id waits with pending | asked | ⟨task, member, settles⟩
    · exact Or.inl pending
    · exact Or.inr (Or.inl asked)
    · cases List.mem_cons.mp member with
      | inl same =>
        rw [same] at settles
        exact settles.elim
      | inr inside => exact Or.inr (Or.inr ⟨task, List.mem_cons_of_mem _ inside, settles⟩)
  have drops : Drops next (.visit dependency fulfilled others :: rest) := by
    rw [← updated]
    apply Drops.append (visit_plain dependency fulfilled others)
    apply lively.drops.tail
    exact fun id waits => ⟨waits, by simp⟩
  have skipped : ∀ id ∈ next.pending, ∀ n, n ≠ j →
      Issues l e (.visit dependency fulfilled (j :: others) :: rest) id n →
      Issues l next (.visit dependency fulfilled others :: rest) id n := by
    rw [← updated]
    exact fun id _ n different issues => issues.skip different _
  have before : ∀ id ∈ next.pending, ∃ n,
      Issues l e (.visit dependency fulfilled (j :: others) :: rest) id n := by
    rw [← updated]
    exact lively.issuers
  split at result
  · rename_i unresolved
    cases result
    refine ⟨numbered, covered, fun id pending => ?_, drops⟩
    obtain ⟨n, issues⟩ := before id pending
    refine ⟨n, skipped id pending n ?_ issues⟩
    rintro rfl
    have single := issues.2.1
    omega
  · split at result
    · cases result
    · rename_i job found
      have but : LivelyBut l job next (.visit dependency fulfilled others :: rest) := by
        refine ⟨numbered, covered, fun id pending other => ?_, drops⟩
        obtain ⟨n, issues⟩ := before id pending
        refine ⟨n, skipped id pending n ?_ issues⟩
        rintro rfl
        obtain ⟨⟨blk, listed, same⟩, _⟩ := issues
        rw [listed, Option.some.injEq] at found
        rw [← found] at other
        exact other (congrArg some same)
      exact but.execute (execute_executed result)

/-- A block that is not available is requested. -/
theorem Lively.sendRequest {nodeID : ShortID} {blkID : ID}
    (lively : Lively l e (.issueFromByID nodeID blkID :: rest))
    (bound : (e.sendRequest nodeID blkID).requestID < 2 ^ 32) :
    Lively l (e.sendRequest nodeID blkID) rest := by
  have idle := lively.drops.idle (fun impossible => impossible)
  unfold Engine.sendRequest at bound ⊢
  split
  · rename_i present
    apply lively.replace []
    · rintro id rfl
      exact Or.inr (Or.inl ((asked_iff_hasValue _ _).mp present))
    · exact fun j impossible => impossible
    · exact drops_of_idle idle
  · rename_i absent
    rw [if_neg absent] at bound
    rw [asked_iff_hasValue] at absent
    have popped : ∀ id, Waits e id → Asked (e.blkReqs.put
        ⟨nodeID, UInt32.ofNat (e.requestID + 1)⟩ blkID) id ∨ id ∈ e.pending ∨
          ∃ task ∈ rest, task.Settles id := by
      intro id waits
      rcases lively.covered id waits with pending | asked | ⟨task, member, settles⟩
      · exact Or.inr (Or.inl pending)
      · exact Or.inl (asked.put lively.numbered bound nodeID absent)
      · cases List.mem_cons.mp member with
        | inl same =>
          rw [same] at settles
          exact Or.inl (settles ▸ asked_put _ _ _)
        | inr inside => exact Or.inr (Or.inr ⟨task, inside, settles⟩)
    constructor
    case numbered => exact lively.numbered.put nodeID blkID
    case covered =>
      intro id waits
      rcases popped id waits with asked | pending | settled
      · exact Or.inr (Or.inl asked)
      · exact Or.inl pending
      · exact Or.inr (Or.inr settled)
    case issuers =>
      intro id pending
      obtain ⟨j, known, single, waits⟩ := lively.issuers id pending
      refine ⟨j, known, single, waits.imp_right ?_⟩
      rintro ⟨task, member, visits⟩
      cases List.mem_cons.mp member with
      | inl same =>
        rw [same] at visits
        exact visits.elim
      | inr inside => exact ⟨task, inside, visits⟩
    case drops => exact drops_of_idle idle

/-- The request for a block that no job waits for, that is pending or that is settled by another
task may be removed. -/
theorem Lively.dropRequest (lively : Lively l e stack) {blkID : ID}
    (settled : Waits e blkID → blkID ∈ e.pending ∨ ∃ task ∈ stack, task.Settles blkID) :
    Lively l (e.dropRequest blkID) stack := by
  obtain ⟨numbered, others⟩ := lively.numbered.deleteValue blkID
  refine ⟨numbered, fun id waits => ?_, lively.issuers, lively.drops⟩
  by_cases same : id = blkID
  · rw [same] at waits ⊢
    exact (settled waits).imp_right Or.inr
  · exact (lively.covered id waits).imp_right (Or.imp_left (others id same))

/-- A block that is not requested is abandoned. -/
theorem Lively.abandon {blkID : ID} (lively : Lively l e (task :: rest))
    (own : ∀ id, task.Settles id → id = blkID) (blind : ∀ j, ¬ task.Visits j)
    (outer : ¬ task.Internal) :
    Lively l e
      ((if e.blkReqs.hasValue blkID = true then [] else [.resolve blkID false]) ++ rest) := by
  have idle := lively.drops.idle outer
  apply lively.replace _ _ blind
  · split
    · exact drops_of_idle idle
    · exact Drops.append (resolve_plain _ _) (drops_of_idle idle)
  · intro id settles
    rw [own id settles]
    split
    · rename_i present
      exact Or.inr (Or.inl ((asked_iff_hasValue _ _).mp present))
    · exact Or.inr (Or.inr ⟨_, List.mem_cons_self, rfl⟩)

/-- `issue` under a task that settled the block, with one that settles the parent. -/
theorem Lively.issue {blk : Block} {next : Task} (lively : Lively l e (task :: rest))
    (own : ∀ id, task.Settles id → id = blk.id) (blind : ∀ j, ¬ task.Visits j)
    (outer : ¬ task.Internal) (parent : blk.parent = l.parent blk.id)
    (settles : next.Settles blk.parent) (kept : ∀ id, next ≠ .dropRequest id)
    (result : e.issue answers blk = some (after, tasks)) :
    Lively l after (tasks ++ next :: rest) := by
  have idle : ∀ id, .dropRequest id ∉ next :: rest := by
    intro id member
    cases List.mem_cons.mp member with
    | inl same => exact kept id same.symm
    | inr inside => exact lively.drops.idle outer id inside
  have queued : LivelyBut l (.issuer blk)
      (Engine.dropRequest { e with pending := e.pending.insert blk.id blk } blk.id)
      (next :: rest) := by
    obtain ⟨numbered, others⟩ := lively.numbered.deleteValue blk.id
    refine ⟨numbered, ?_, ?_, drops_of_idle idle⟩
    · intro id waits
      by_cases same : id = blk.id
      · exact Or.inl (Finmap.mem_insert.mpr (Or.inl same))
      · rcases lively.covered id waits with pending | asked | ⟨other, member, settled⟩
        · exact Or.inl (Finmap.mem_insert.mpr (Or.inr pending))
        · exact Or.inr (Or.inl (others id same asked))
        · cases List.mem_cons.mp member with
          | inl first => exact absurd (own id (first ▸ settled)) same
          | inr inside => exact Or.inr (Or.inr ⟨other, List.mem_cons_of_mem _ inside, settled⟩)
    · intro id pending other
      have before : id ∈ e.pending := by
        refine (Finmap.mem_insert.mp pending).resolve_left ?_
        rintro rfl
        exact other rfl
      obtain ⟨j, known, single, waits⟩ := lively.issuers id before
      refine ⟨j, known, single, waits.imp_right ?_⟩
      rintro ⟨visitor, member, visits⟩
      cases List.mem_cons.mp member with
      | inl first => exact absurd (first ▸ visits) (blind j)
      | inr inside => exact ⟨visitor, List.mem_cons_of_mem _ inside, visits⟩
  refine queued.schedule ?_ ?_ idle result
  · intro id member
    split at member
    · cases member
    · rw [List.mem_singleton.mp member]
      exact Or.inr (Or.inr ⟨next, List.mem_cons_self, settles⟩)
  · rintro _ ⟨rfl⟩
    split
    · exact Or.inl rfl
    · exact Or.inr (by rw [parent])

/-- The end of the loops over the options: the block is no longer pending. -/
theorem Lively.option {blk : Block} {flag : Bool} (lively : Lively l e (task :: rest))
    (settlesNone : ∀ id, ¬ task.Settles id) (blind : ∀ j, ¬ task.Visits j) :
    Lively l { e with pending := e.pending.erase blk.id }
      (.resolve blk.id flag :: .dropRequest blk.id :: rest) := by
  have notResolve : ∀ id other, task ≠ .resolve id other := by
    rintro id other rfl
    exact settlesNone id rfl
  have tail : Drops { e with pending := e.pending.erase blk.id } rest :=
    lively.drops.tail (fun id waits => ⟨waits, notResolve id⟩)
  constructor
  case numbered => exact lively.numbered
  case covered =>
    intro id waits
    by_cases same : id = blk.id
    · exact Or.inr (Or.inr ⟨_, List.mem_cons_self, same.symm⟩)
    · rcases lively.covered id waits with pending | asked | ⟨other, member, settles⟩
      · exact Or.inl (Finmap.mem_erase.mpr ⟨same, pending⟩)
      · exact Or.inr (Or.inl asked)
      · cases List.mem_cons.mp member with
        | inl first => exact absurd (first ▸ settles) (settlesNone id)
        | inr inside => exact Or.inr (Or.inr ⟨other, by simp [inside], settles⟩)
  case issuers =>
    intro id pending
    obtain ⟨j, known, single, waits⟩ := lively.issuers id (Finmap.mem_erase.mp pending).2
    refine ⟨j, known, single, waits.imp_right ?_⟩
    rintro ⟨visitor, member, visits⟩
    cases List.mem_cons.mp member with
    | inl first => exact absurd (first ▸ visits) (blind j)
    | inr inside => exact ⟨visitor, by simp [inside], visits⟩
  case drops =>
    intro above id below same
    cases above with
    | nil => cases same
    | cons first above =>
      obtain ⟨rfl, more⟩ := List.cons.inj same
      cases above with
      | nil =>
        obtain ⟨own, _⟩ := List.cons.inj more
        cases own
        refine ⟨?_, fun _ => ⟨flag, List.mem_singleton_self _⟩⟩
        intro task member
        rw [List.mem_singleton.mp member]
        trivial
      | cons second above =>
        obtain ⟨rfl, remaining⟩ := List.cons.inj more
        obtain ⟨internal, resolved⟩ := tail above id below remaining
        refine ⟨?_, fun waits => ?_⟩
        · intro task member
          rcases List.mem_cons.mp member with rfl | later
          · trivial
          · rcases List.mem_cons.mp later with rfl | inside
            · trivial
            · exact internal task inside
        · obtain ⟨other, member⟩ := resolved waits
          exact ⟨other, by simp [member]⟩

/-- A task is replaced by one that settles its block. -/
theorem Lively.handOn {next : Task} (lively : Lively l e (task :: rest)) (outer : ¬ task.Internal)
    (settles : ∀ id, task.Settles id → next.Settles id) (blind : ∀ j, ¬ task.Visits j)
    (kept : ∀ id, next ≠ .dropRequest id) : Lively l e (next :: rest) := by
  apply lively.replace [next]
  · exact fun id own => Or.inr (Or.inr ⟨next, List.mem_cons_self, settles id own⟩)
  · exact blind
  · apply drops_of_idle
    intro id member
    cases List.mem_cons.mp member with
    | inl same => exact kept id same.symm
    | inr old => exact lively.drops.idle outer id old

/-- A received block that is not issued: its request is removed, and the jobs that wait for it are
told unless it is pending. -/
theorem Lively.received {nodeID : ShortID} {blkID : ID} {blk : Block}
    (lively : Lively l e (.issueFrom nodeID blkID blk :: rest)) :
    Lively l (e.dropRequest blkID)
      ((if blkID ∈ (e.dropRequest blkID).pending then [] else [.resolve blkID false]) ++ rest) := by
  have idle := lively.drops.idle (fun impossible => impossible)
  split
  · rename_i pending
    have popped : Lively l e rest := by
      apply lively.replace []
      · rintro id rfl
        exact Or.inl pending
      · exact fun j impossible => impossible
      · exact drops_of_idle idle
    exact popped.dropRequest (fun _ => Or.inl pending)
  · have replaced : Lively l e (.resolve blkID false :: rest) := by
      apply lively.replace [.resolve blkID false]
      · rintro id rfl
        exact Or.inr (Or.inr ⟨_, List.mem_cons_self, rfl⟩)
      · exact fun j impossible => impossible
      · exact Drops.append (resolve_plain _ _) (drops_of_idle idle)
    exact replaced.dropRequest (fun _ => Or.inr ⟨_, List.mem_cons_self, rfl⟩)

/-- `issueFrom` issues the block and goes on to its parent, or leaves it. -/
theorem Lively.issueFrom {nodeID : ShortID} {blkID : ID} {blk : Block}
    (lively : Lively l e (.issueFrom nodeID blkID blk :: rest)) (same : blk.id = blkID)
    (parent : blk.parent = l.parent blk.id)
    (result : e.step answers (.issueFrom nodeID blkID blk) = some (after, tasks)) :
    Lively l after (tasks ++ rest) := by
  simp only [Engine.step] at result
  split at result
  · split at result
    · cases result
    · rename_i issuing
      cases result
      rw [List.append_assoc]
      exact lively.issue (fun id settles => settles.symm.trans same.symm)
        (fun j impossible => impossible) (fun impossible => impossible) parent rfl (by simp) issuing
  · cases result
    exact lively.received

/-- `issueWithAncestors` issues the block and goes on to its parent, or abandons it. -/
theorem Lively.issueWithAncestors {blkID : ID} {blk : Block}
    (lively : Lively l e (.issueWithAncestors blkID blk :: rest)) (same : blk.id = blkID)
    (parent : blk.parent = l.parent blk.id)
    (result : e.step answers (.issueWithAncestors blkID blk) = some (after, tasks)) :
    Lively l after (tasks ++ rest) := by
  simp only [Engine.step] at result
  split at result
  · split at result
    · cases result
    · rename_i issuing
      cases result
      rw [List.append_assoc]
      exact lively.issue (fun id settles => settles.symm.trans same.symm)
        (fun j impossible => impossible) (fun impossible => impossible) parent rfl (by simp) issuing
  · cases result
    exact lively.abandon (fun id settles => settles.symm) (fun j impossible => impossible)
      (fun impossible => impossible)

/-- A voter is scheduled on the blocks that are pending or requested. -/
theorem Lively.scheduleVoter {nodeID : ShortID} {requestID : UInt32} {responseOptions : List ID}
    (lively : Lively l e (.scheduleVoter nodeID requestID responseOptions :: rest))
    (result : e.step answers (.scheduleVoter nodeID requestID responseOptions) =
      some (after, tasks)) : Lively l after (tasks ++ rest) := by
  have idle := lively.drops.idle (fun impossible => impossible)
  have popped : Lively l e rest := lively.pop (fun id impossible => impossible)
    (fun j impossible => impossible)
  refine (popped.but (.voter nodeID requestID responseOptions)).schedule ?_ ?_ idle result
  · intro id member
    have depends := (List.mem_filter.mp member).2
    unfold Engine.canDependOn at depends
    rw [Bool.or_eq_true, decide_eq_true_eq, asked_iff_hasValue] at depends
    exact depends.imp_right Or.inl
  · intro blk impossible
    cases impossible

/-- `executeDeferredWork` builds a block and comes back, or does nothing. -/
theorem Lively.executeDeferredWork (lively : Lively l e (.executeDeferredWork :: rest))
    (result : e.step answers .executeDeferredWork = some (after, tasks)) :
    Lively l after (tasks ++ rest) := by
  have idle := lively.drops.idle (fun impossible => impossible)
  have popped : Lively l e rest := lively.pop (fun id impossible => impossible)
    (fun j impossible => impossible)
  simp only [Engine.step] at result
  split at result
  · split at result
    · cases result
      exact ⟨popped.numbered, popped.covered, popped.issuers, popped.drops⟩
    · rename_i blk built
      cases result
      refine ⟨popped.numbered, fun id waits => (popped.covered id waits).append _,
        fun id pending => ?_, drops_of_idle ?_⟩
      · obtain ⟨j, issues⟩ := popped.issuers id pending
        exact ⟨j, issues.append _⟩
      · intro id member
        rcases List.mem_append.mp member with new | old
        · simp at new
        · exact idle id old
  · cases result
    exact popped

variable {age : ID → ℕ}

/-- Every task keeps it. -/
theorem Lively.step (lively : Lively l e (task :: rest)) (genuine : task.Genuine l age)
    (result : e.step answers task = some (after, tasks)) (bound : after.requestID < 2 ^ 32) :
    Lively l after (tasks ++ rest) := by
  cases task with
  | resolve dependency fulfilled =>
    cases result
    exact lively.resolve
  | visit dependency fulfilled jobs =>
    cases jobs with
    | nil =>
      cases result
      exact lively.pop (fun id impossible => impossible) (fun j => List.not_mem_nil)
    | cons j others =>
      simp only [Engine.step] at result
      split at result
      · cases result
      · rename_i visiting
        cases result
        rw [List.append_assoc]
        exact lively.visit visiting
  | issueFromByID nodeID blkID =>
    simp only [Engine.step] at result
    split at result
    · cases result
      exact lively.sendRequest bound
    · rename_i blk found
      cases result
      exact lively.handOn (fun impossible => impossible) (fun id own => own)
        (fun j impossible => impossible) (by simp)
  | issueFrom nodeID blkID blk =>
    obtain ⟨same, authentic⟩ := genuine
    exact lively.issueFrom same authentic.parent result
  | issueWithAncestors blkID blk =>
    obtain ⟨same, authentic⟩ := genuine
    exact lively.issueWithAncestors same authentic.parent result
  | issueParent blkID =>
    simp only [Engine.step] at result
    split at result
    · cases result
      exact lively.abandon (fun id settles => settles.symm) (fun j impossible => impossible)
        (fun impossible => impossible)
    · rename_i blk found
      cases result
      exact lively.handOn (fun impossible => impossible) (fun id own => own)
        (fun j impossible => impossible) (by simp)
  | deliver blk =>
    have popped : Lively l e rest := lively.pop (fun id impossible => impossible)
      (fun j impossible => impossible)
    exact (popped.but (.issuer blk)).execute (deliver_executed result)
  | addedOption blk =>
    cases result
    apply (lively.frame (queryIfPreferred_frame answers e blk)).option
    · exact fun id impossible => impossible
    · exact fun j impossible => impossible
  | droppedOption blk =>
    cases result
    apply lively.option
    · exact fun id impossible => impossible
    · exact fun j impossible => impossible
  | dropRequest blkID =>
    cases result
    have popped : Lively l e rest := lively.pop (fun id impossible => impossible)
      (fun j impossible => impossible)
    apply popped.dropRequest
    intro waits
    obtain ⟨flag, impossible⟩ := (lively.drops [] blkID rest rfl).2 waits
    cases impossible
  | repollUnlessIdle =>
    cases result
    have popped : Lively l e rest := lively.pop (fun id impossible => impossible)
      (fun j impossible => impossible)
    split
    · exact popped
    · exact popped.frame (repoll_frame answers e)
  | scheduleVoter nodeID requestID responseOptions => exact lively.scheduleVoter result
  | executeDeferredWork => exact lively.executeDeferredWork result

end Lively

/-! ## Messages and runs -/

section Messages

variable {l : Lineage} {e : Engine F}

/-- Tasks are begun when nothing is left to do. -/
theorem Lively.begin (lively : Lively l e []) {tasks : List Task}
    (kept : ∀ id, .dropRequest id ∉ tasks) : Lively l e tasks := by
  refine ⟨lively.numbered, ?_, ?_, drops_of_idle kept⟩
  · intro id waits
    simpa using (lively.covered id waits).append tasks
  · intro id pending
    obtain ⟨j, issues⟩ := lively.issuers id pending
    exact ⟨j, by simpa using issues.append tasks⟩

/-- A failed request keeps the invariant. -/
theorem Lively.getFailed (lively : Lively l e []) (nodeID : ShortID) (requestID : UInt32) :
    Lively l (e.getFailed nodeID requestID).1 (e.getFailed nodeID requestID).2 := by
  unfold Engine.getFailed
  split
  · exact lively
  · rename_i rest blkID deleted
    obtain ⟨numbered, others⟩ := lively.numbered.deleteKey deleted
    have began : Lively l e [.resolve blkID false, .executeDeferredWork] :=
      lively.begin (fun id impossible => by simp at impossible)
    refine ⟨numbered, fun id waits => ?_, began.issuers, began.drops⟩
    by_cases same : id = blkID
    · exact Or.inr (Or.inr ⟨_, List.mem_cons_self, same.symm⟩)
    · exact (began.covered id waits).imp_right (Or.imp_left (others id same))

/-- Votes that are received keep the invariant. -/
theorem Lively.chits (lively : Lively l e []) (nodeID : ShortID) (requestID : UInt32)
    (preferredID preferredIDAtHeight : ID) :
    Lively l (e.chits nodeID requestID preferredID preferredIDAtHeight).1
      (e.chits nodeID requestID preferredID preferredIDAtHeight).2 := by
  unfold Engine.chits
  split
  · exact lively.begin (fun id impossible => by simp at impossible)
  · exact lively.begin (fun id impossible => by simp at impossible)

/-- Every message keeps it. -/
theorem Lively.handle (lively : Lively l e []) (message : Message) :
    Lively l (e.handle message).1 (e.handle message).2 := by
  cases message with
  | put nodeID requestID blk =>
    cases blk with
    | none => exact lively.getFailed nodeID requestID
    | some blk =>
      simp only [Engine.handle]
      split
      · split
        · exact lively.getFailed nodeID requestID
        · exact lively.begin (fun id impossible => by simp at impossible)
      · exact lively.begin (fun id impossible => by simp at impossible)
  | getFailed nodeID requestID => exact lively.getFailed nodeID requestID
  | pullQuery nodeID blkID =>
    simp only [Engine.handle]
    exact lively.begin (fun id impossible => by simp at impossible)
  | pushQuery nodeID blk =>
    cases blk with
    | none => exact lively
    | some blk =>
      simp only [Engine.handle]
      exact lively.begin (fun id impossible => by simp at impossible)
  | chits nodeID requestID preferredID preferredIDAtHeight =>
    exact lively.chits nodeID requestID preferredID preferredIDAtHeight
  | queryFailed nodeID requestID lastAccepted =>
    cases lastAccepted with
    | none =>
      simp only [Engine.handle]
      exact lively.begin (fun id impossible => by simp at impossible)
    | some lastAcceptedID =>
      exact lively.chits nodeID requestID lastAcceptedID lastAcceptedID
  | pendingTxs =>
    have began : Lively l e [.executeDeferredWork] :=
      lively.begin (fun id impossible => by simp at impossible)
    exact ⟨began.numbered, began.covered, began.issuers, began.drops⟩
  | gossip sampled =>
    simp only [Engine.handle]
    split
    · exact lively.begin (fun id impossible => by simp at impossible)
    · split
      · exact lively.frame ⟨Nat.le_succ _, rfl, rfl, rfl, rfl⟩
      · exact lively

end Messages

/-- The request numbers of a running engine have not come round. -/
def Machine.Unwrapped (m : Machine F) : Prop := ∀ state ∈ m, state.1.requestID < 2 ^ 32

instance Machine.decidableUnwrapped (m : Machine F) : Decidable m.Unwrapped :=
  inferInstanceAs (Decidable (∀ state ∈ m, state.1.requestID < 2 ^ 32))

def Machine.Lively (l : Lineage) (m : Machine F) : Prop :=
  ∀ e tasks, m = some (e, tasks) → SnowmanEngine.Lively l e tasks

section Runs

variable {l : Lineage} {age : ID → ℕ} {genesis : ID} {params : Parameters}

/-- Every step keeps the invariant, as long as the request numbers do not wrap around. -/
theorem machine_step_lively {m : Machine F} {action : Action}
    (governed : m.Governed l age genesis params) (lively : m.Lively l)
    (unwrapped : (m.step action).Unwrapped) : Machine.Lively l (m.step action) := by
  cases m with
  | none =>
    intro e tasks impossible
    cases impossible
  | some state =>
    obtain ⟨e, stack⟩ := state
    cases stack with
    | nil =>
      cases action with
      | receive message =>
        intro after tasks result
        have handled : e.handle message = (after, tasks) := Option.some.inj result
        have kept := (lively e [] rfl).handle message
        rw [handled] at kept
        exact kept
      | advance answers => exact lively
    | cons task rest =>
      cases action with
      | receive message => exact lively
      | advance answers =>
        intro after tasks result
        have bound := unwrapped (after, tasks) result
        simp only [Machine.step] at result
        split at result
        · cases result
        · rename_i next first stepped
          cases result
          obtain ⟨_, genuine⟩ := governed e (task :: rest) rfl
          exact (lively e (task :: rest) rfl).step (genuine task List.mem_cons_self) stepped bound

/-- The invariant holds when the engine starts. -/
theorem start_lively (sets : SetReading) (startReqID : UInt32) (ts : Topological F)
    (options : List Block) : Machine.Lively l (start sets startReqID ts options) := by
  rintro e tasks ⟨rfl⟩
  refine ⟨Engine.numbered_new _, ?_, ?_, drops_of_idle ?_⟩
  · rintro id ⟨j, impossible⟩
    simp [Scheduler.waiting, Engine.newScheduler] at impossible
  · exact fun id impossible => absurd impossible Finmap.notMem_empty
  · intro id impossible
    simp at impossible

/-- Between two calls: going from parent to parent one passes pending blocks only, until one
comes to a block that is requested. -/
theorem Lively.leads_to_request {e : Engine F} (lively : Lively l e [])
    (governed : Governed l age genesis params e) (id : ID)
    (waits : Waits e id ∨ id ∈ e.pending) :
    ∃ n, Asked e.blkReqs (l.parent^[n] id) ∧ ∀ m < n, l.parent^[m] id ∈ e.pending := by
  -- By induction on the age of the block; a pending block has an issuer that waits for the parent.
  induction aged : age id using Nat.strong_induction_on generalizing id with
  | h size inductionHypothesis =>
    by_cases pending : id ∈ e.pending
    · obtain ⟨blk, found⟩ := Finmap.mem_iff.mp pending
      obtain ⟨rfl, authentic⟩ := governed.pending id blk found
      obtain ⟨j, _, _, waiting⟩ := lively.issuers blk.id pending
      have parentWaits : Waits e (l.parent blk.id) := by
        rcases waiting with member | ⟨task, impossible, _⟩
        · exact ⟨j, member⟩
        · cases impossible
      obtain ⟨n, asked, between⟩ := inductionHypothesis _ (aged ▸ authentic.younger)
        (l.parent blk.id) (Or.inl parentWaits) rfl
      refine ⟨n + 1, asked, ?_⟩
      intro m below
      cases m with
      | zero => exact pending
      | succ m => exact between m (Nat.lt_of_succ_lt_succ below)
    · have waited := waits.resolve_right pending
      rcases lively.covered id waited with impossible | asked | ⟨task, impossible, _⟩
      · exact absurd impossible pending
      · exact ⟨0, asked, fun m below => absurd below (Nat.not_lt_zero m)⟩
      · cases impossible

end Runs

/-- In every state of every run in which the request numbers do not come round, when no call is
in progress: from every block that a job waits for, and from every pending block, the parents
lead through pending blocks to one with an outstanding request. -/
theorem no_job_waits_in_vain {l : Lineage} {age : ID → ℕ} {genesis : ID}
    {params : Parameters} {ts : Topological F}
    (started : Topological.initializeAt params genesis (l.height genesis) = .ok ts)
    (sets : SetReading) (startReqID : UInt32) {options : List Block}
    (authentic : ∀ blk ∈ options, Authentic l age blk) {actions : List Action}
    (honest : Along Machine.step
      (fun m action => action.Honest l age params ∧ (m.step action).Unwrapped)
      (start sets startReqID ts options) actions) {e : Engine F}
    (reached : run Machine.step (start sets startReqID ts options) actions = some (e, []))
    (id : ID) (waits : (∃ j, j ∈ e.blocked.waiting id) ∨ id ∈ e.pending) :
    ∃ n, e.blkReqs.hasValue (l.parent^[n] id) = true ∧ ∀ m < n, l.parent^[m] id ∈ e.pending := by
  obtain ⟨valid, governed⟩ := start_governed started sets startReqID authentic
  have both := Along.invariant Machine.step
    (fun m => m.Governed l age genesis params ∧ m.Lively l)
    (fun m action allowed kept => ⟨machine_step_governed valid m action allowed.1 kept.1,
      machine_step_lively kept.1 kept.2 allowed.2⟩) honest
    ⟨governed, start_lively sets startReqID ts options⟩
  obtain ⟨n, asked, between⟩ :=
    (both.2 e [] reached).leads_to_request (both.1 e [] reached).1 id waits
  exact ⟨n, (asked_iff_hasValue _ _).mpr asked, between⟩

/-- The third block of the line is pushed. -/
def thirdPushed : List Action := .advance firstValid :: pushed 3

/-- The run is honest, and its request numbers do not wrap around. -/
theorem thirdPushed_unwrapped : Along Machine.step
    (fun m action => action.Honest line line.height Snowman.decisive ∧ (m.step action).Unwrapped)
    (start .interface 0 Snowman.decisiveStart []) thirdPushed := by
  have honest : ∀ action ∈ thirdPushed, action.Honest line line.height Snowman.decisive := by
    have third : Authentic line line.height (lineBlock 3) := ⟨rfl, by decide⟩
    simp only [thirdPushed, pushed, List.forall_mem_cons]
    refine ⟨firstValid_honest, third, fun action member => ?_⟩
    rw [List.eq_of_mem_replicate member]
    exact firstValid_honest
  have bounded : Along Machine.step (fun m action => (m.step action).Unwrapped)
      (start .interface 0 Snowman.decisiveStart []) thirdPushed := by
    decide +kernel
  exact (Along.of_forall _ _ honest).and _ bounded

/-- The second block is not available: the third is pending, and the second is requested. -/
theorem third_waits_for_second :
    (run Machine.step (start .interface 0 Snowman.decisiveStart []) thirdPushed).map
        (fun state => (state.1.pending.lookup (Vector.replicate 32 3), state.2.isEmpty)) =
        some (some (lineBlock 3), true) ∧
      ∀ e, run Machine.step (start .interface 0 Snowman.decisiveStart []) thirdPushed =
          some (e, []) →
        Vector.replicate 32 3 ∈ e.pending →
        ∃ n, e.blkReqs.hasValue (line.parent^[n] (Vector.replicate 32 3)) = true ∧
          ∀ m < n, line.parent^[m] (Vector.replicate 32 3) ∈ e.pending := by
  refine ⟨by decide +kernel, fun e reached pending => ?_⟩
  have started : Topological.initializeAt Snowman.decisive Snowman.emptyID
      (line.height Snowman.emptyID) = .ok Snowman.decisiveStart := rfl
  exact no_job_waits_in_vain started .interface 0
    (fun blk impossible => absurd impossible List.not_mem_nil)
    thirdPushed_unwrapped reached _ (Or.inr pending)

end AvalancheParallel.SnowmanEngine
