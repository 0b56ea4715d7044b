import AvalancheParallel.Bootstrap.Queue
import AvalancheParallel.Foundation.DependencyOrder

/-!
# The queue executes in the order of dependencies

Between two calls and between two rounds of `ExecuteAll` the queue is determined by
what has been pushed and what has been executed: the database holds the pushed jobs
that have not been executed, the runnable IDs are those of them that miss nothing, and
the dependents of an ID are the jobs that miss it. Each round keeps this, and the last
round leaves no runnable job.
-/

namespace AvalancheParallel.Bootstrap

open AvalancheParallel.DependencyOrder AvalancheParallel.FiniteDag AvalancheParallel.OrderedStore
open AvalancheParallel.RangeLoop

variable {ID : Type} {J : JobType ID}

/-- The dependency relation of the jobs. -/
def DependsOn (J : JobType ID) (id dependency : ID) : Prop :=
  ∃ job, J.id job = id ∧ dependency ∈ J.dependencies job

/-- The job is one of the pushed ones and has the ID. -/
def PushedAs (pushed : List J.Job) (id : ID) (job : J.Job) : Prop := job ∈ pushed ∧ J.id job = id

/-- One job at most was pushed under an ID. -/
theorem PushedAs.unique {pushed : List J.Job} {id : ID} {job other : J.Job}
    (first : PushedAs pushed id job) (second : PushedAs pushed id other) : job = other :=
  J.id_injective (first.2.trans second.2.symm)

/-- What was pushed stays pushed. -/
theorem PushedAs.append {pushed : List J.Job} {id : ID} {job : J.Job}
    (earlier : PushedAs pushed id job) (later : List J.Job) : PushedAs (pushed ++ later) id job :=
  ⟨List.mem_append_left later earlier.1, earlier.2⟩

/-- Jobs that have been pushed before or are pushed now. -/
theorem exists_pushedAs_snoc {pushed : List J.Job} {next : J.Job} {id : ID}
    {property : J.Job → Prop} :
    (∃ job, PushedAs (pushed ++ [next]) id job ∧ property job) ↔
      (∃ job, PushedAs pushed id job ∧ property job) ∨ J.id next = id ∧ property next := by
  unfold PushedAs
  simp only [List.mem_append, List.mem_singleton]
  constructor
  · rintro ⟨job, ⟨earlier | rfl, own⟩, holds⟩
    · exact Or.inl ⟨job, ⟨earlier, own⟩, holds⟩
    · exact Or.inr ⟨own, holds⟩
  · rintro (⟨job, ⟨earlier, own⟩, holds⟩ | ⟨own, holds⟩)
    · exact ⟨job, ⟨Or.inl earlier, own⟩, holds⟩
    · exact ⟨next, ⟨Or.inr rfl, own⟩, holds⟩

variable [DecidableEq ID]

/-- What the state of the queue is when the given jobs have been pushed and executed. -/
structure Tracks (pushed : List J.Job) (executed : List ID) (s : State J) : Prop where
  jobs : ∀ id bytes, s.jobsDB.lookup id = some bytes ↔
    ∃ job, PushedAs pushed id job ∧ J.bytes job = bytes ∧ id ∉ executed
  runnable : ∀ id, id ∈ s.runnableJobIDs ↔
    ∃ job, PushedAs pushed id job ∧ id ∉ executed ∧ J.missingDependencies executed job = ∅
  distinct : s.runnableJobIDs.Nodup
  dependents : ∀ dependency id, id ∈ s.dependentIDs dependency ↔
    ∃ job, PushedAs pushed id job ∧ dependency ∈ J.missingDependencies executed job
  count : executed.length + s.jobsDB.keys.card < UInt64.size →
    s.numJobs.toNat = s.jobsDB.keys.card

/-- The jobs of the cache have been pushed. -/
def Cached (pushed : List J.Job) (s : State J) : Prop :=
  ∀ entry ∈ s.jobsCache, PushedAs pushed entry.1 entry.2

/-- What has been executed: pushed jobs, each once and after what it needs. -/
structure Ran (pushed : List J.Job) (executed : List ID) : Prop where
  distinct : executed.Nodup
  inside : ∀ id ∈ executed, ∃ job, PushedAs pushed id job
  respects : Respects (DependsOn J) executed

/-- A missing dependency is one that has not been executed. -/
theorem mem_missingDependencies {executed : List ID} {job : J.Job} {dependency : ID} :
    dependency ∈ J.missingDependencies executed job ↔
      dependency ∈ J.dependencies job ∧ dependency ∉ executed := by
  unfold JobType.missingDependencies
  rw [Finset.mem_filter]

/-- After one more execution, one dependency less is missing. -/
theorem mem_missingDependencies_snoc {executed : List ID} {next dependency : ID} {job : J.Job} :
    dependency ∈ J.missingDependencies (executed ++ [next]) job ↔
      dependency ∈ J.missingDependencies executed job ∧ dependency ≠ next := by
  rw [mem_missingDependencies, mem_missingDependencies, List.mem_append, List.mem_singleton,
    not_or, and_assoc]

/-- An executed job misses nothing. -/
theorem Ran.missing {pushed : List J.Job} {executed : List ID} (ran : Ran pushed executed)
    {id : ID} (done : id ∈ executed) {job : J.Job} (same : J.id job = id) :
    J.missingDependencies executed job = ∅ := by
  rw [Finset.eq_empty_iff_forall_notMem]
  intro dependency missing
  obtain ⟨needed, absent⟩ := mem_missingDependencies.mp missing
  exact absent (ran.respects.closed done (Relation.TransGen.single ⟨job, same, needed⟩))

/-- A stored ID is that of a pushed job which has not been executed. -/
theorem Tracks.mem_jobsDB {pushed : List J.Job} {executed : List ID} {s : State J}
    (tracks : Tracks pushed executed s) (id : ID) :
    id ∈ s.jobsDB ↔ (∃ job, PushedAs pushed id job) ∧ id ∉ executed := by
  rw [Finmap.mem_iff]
  constructor
  · rintro ⟨bytes, found⟩
    obtain ⟨job, own, _, left⟩ := (tracks.jobs id bytes).mp found
    exact ⟨⟨job, own⟩, left⟩
  · rintro ⟨⟨job, own⟩, left⟩
    exact ⟨J.bytes job, (tracks.jobs id _).mpr ⟨job, own, rfl, left⟩⟩

/-- What is executed and what is left are different pushed jobs. -/
theorem Tracks.card_le {pushed : List J.Job} {executed : List ID} {s : State J}
    (tracks : Tracks pushed executed s) (ran : Ran pushed executed) :
    executed.length + s.jobsDB.keys.card ≤ (pushed.map J.id).toFinset.card := by
  have own : ∀ id, (∃ job, PushedAs pushed id job) → id ∈ (pushed.map J.id).toFinset := by
    rintro id ⟨job, member, rfl⟩
    exact List.mem_toFinset.mpr (List.mem_map_of_mem member)
  have apart : Disjoint executed.toFinset s.jobsDB.keys := by
    rw [Finset.disjoint_left]
    intro id done stored
    exact ((tracks.mem_jobsDB id).mp (Finmap.mem_keys.mp stored)).2 (List.mem_toFinset.mp done)
  rw [← List.toFinset_card_of_nodup ran.distinct, ← Finset.card_union_of_disjoint apart]
  apply Finset.card_le_card
  intro id member
  rcases Finset.mem_union.mp member with done | stored
  · exact own id (ran.inside id (List.mem_toFinset.mp done))
  · exact own id ((tracks.mem_jobsDB id).mp (Finmap.mem_keys.mp stored)).1

section Pushing

variable {pushed : List J.Job} {s : State J}

/-- Before anything is executed, `HasJob` finds the pushed jobs, in the cache or not. -/
theorem hasJob_spec (tracks : Tracks pushed [] s) (cached : Cached pushed s) (id : ID) :
    ∃ jobsCache, s.hasJob id = ({ s with jobsCache := jobsCache }, decide (id ∈ s.jobsDB)) ∧
      Cached pushed { s with jobsCache := jobsCache } := by
  unfold State.hasJob State.cachedJob
  by_cases enabled : s.cachingEnabled = true
  · rw [if_pos enabled]
    refine ⟨(cacheGet id s.jobsCache).1, ?_, fun entry member => cached entry (mem_cacheGet member)⟩
    cases found : (cacheGet id s.jobsCache).2 with
    | none => rfl
    | some job =>
      have own := cached _ (cacheGet_some found)
      have stored : id ∈ s.jobsDB := (tracks.mem_jobsDB id).mpr ⟨⟨job, own⟩, List.not_mem_nil⟩
      simp [stored]
  · rw [if_neg enabled]
    exact ⟨s.jobsCache, rfl, cached⟩

/-- The job is added to the dependents of each of its dependencies. -/
theorem addDependencies_spec (deps : List ID) (dependent : ID) (s : State J) :
    ∃ dependentIDs, deps.foldl (fun s depID => s.addDependency depID dependent) s =
        { s with dependentIDs := dependentIDs } ∧
      ∀ dependency id, id ∈ dependentIDs dependency ↔
        id ∈ s.dependentIDs dependency ∨ dependency ∈ deps ∧ id = dependent := by
  induction deps generalizing s with
  | nil => exact ⟨s.dependentIDs, rfl, by simp⟩
  | cons first rest inductionHypothesis =>
    obtain ⟨dependentIDs, after, members⟩ := inductionHypothesis (s.addDependency first dependent)
    refine ⟨dependentIDs, after, ?_⟩
    intro dependency id
    rw [members dependency id]
    simp only [State.addDependency, List.mem_cons]
    by_cases here : dependency = first
    · subst here
      rw [Function.update_self, mem_putKey]
      tauto
    · rw [Function.update_of_ne here]
      tauto

/-- Storing a new job. -/
theorem putJob_spec (tracks : Tracks pushed [] s) (cached : Cached pushed s) {job : J.Job}
    (fresh : J.id job ∉ s.jobsDB) :
    (∀ id bytes, (s.putJob job).jobsDB.lookup id = some bytes ↔
      ∃ other, PushedAs (pushed ++ [job]) id other ∧ J.bytes other = bytes ∧ id ∉ ([] : List ID)) ∧
    ((s.putJob job).jobsDB.keys.card < UInt64.size →
      (s.putJob job).numJobs.toNat = (s.putJob job).jobsDB.keys.card) ∧
    Cached (pushed ++ [job]) (s.putJob job) := by
  refine ⟨?_, ?_, ?_⟩
  · intro id bytes
    rw [exists_pushedAs_snoc, ← tracks.jobs id bytes]
    simp only [State.putJob, List.not_mem_nil, not_false_eq_true, and_true]
    by_cases same : id = J.id job
    · subst same
      rw [Finmap.lookup_insert, Finmap.lookup_eq_none.mpr fresh]
      simp
    · rw [Finmap.lookup_insert_of_ne _ same]
      simp [Ne.symm same]
  · simp only [State.putJob, keys_insert]
    rw [Finset.card_insert_of_notMem (fun member => fresh (Finmap.mem_keys.mp member))]
    intro fits
    have before : s.numJobs.toNat = s.jobsDB.keys.card := by
      apply tracks.count
      rw [List.length_nil, Nat.zero_add]
      exact Nat.lt_of_succ_lt fits
    rw [UInt64.toNat_add, before]
    exact Nat.mod_eq_of_lt fits
  · intro entry member
    simp only [State.putJob] at member
    split at member
    · cases mem_cachePut member with
      | inl new => exact new ▸ ⟨List.mem_append_right _ List.mem_cons_self, rfl⟩
      | inr earlier => exact (cached entry earlier).append [job]
    · exact (cached entry member).append [job]

/-- Before anything is executed, the stored IDs are those of the pushed jobs. -/
theorem Tracks.stored_iff (tracks : Tracks pushed [] s) (job : J.Job) :
    J.id job ∈ s.jobsDB ↔ job ∈ pushed := by
  rw [tracks.mem_jobsDB]
  constructor
  · rintro ⟨⟨other, member, same⟩, _⟩
    exact J.id_injective same ▸ member
  · exact fun member => ⟨⟨job, member, rfl⟩, List.not_mem_nil⟩

/-- Pushing a job again changes nothing. -/
theorem Tracks.again (tracks : Tracks pushed [] s) {job : J.Job} (member : job ∈ pushed) :
    Tracks (pushed ++ [job]) [] s := by
  have same : ∀ id other, PushedAs (pushed ++ [job]) id other ↔ PushedAs pushed id other := by
    intro id other
    unfold PushedAs
    rw [List.mem_append, List.mem_singleton]
    refine and_congr_left (fun _ => ⟨?_, Or.inl⟩)
    rintro (earlier | rfl)
    · exact earlier
    · exact member
  constructor
  case jobs => simpa only [same] using tracks.jobs
  case runnable => simpa only [same] using tracks.runnable
  case distinct => exact tracks.distinct
  case dependents => simpa only [same] using tracks.dependents
  case count => exact tracks.count

/-- A new job that misses something waits for what it misses. -/
theorem Tracks.put_waiting (tracks : Tracks pushed [] s) (cached : Cached pushed s) {job : J.Job}
    (new : J.id job ∉ s.jobsDB) (waits : J.missingDependencies [] job ≠ ∅)
    (order : IterationOrder ID) :
    let after := (order.arrange (J.missingDependencies [] job)).foldl
      (fun s depID => s.addDependency depID (J.id job)) (s.putJob job)
    Tracks (pushed ++ [job]) [] after ∧ Cached (pushed ++ [job]) after := by
  obtain ⟨jobs, count, cache⟩ := putJob_spec tracks cached new
  obtain ⟨dependentIDs, after, members⟩ := addDependencies_spec
    (order.arrange (J.missingDependencies [] job)) (J.id job) (s.putJob job)
  dsimp only
  rw [after]
  refine ⟨?_, cache⟩
  constructor
  case jobs => exact jobs
  case runnable =>
    intro id
    rw [exists_pushedAs_snoc, ← tracks.runnable id]
    simp [State.putJob, waits]
  case distinct => exact tracks.distinct
  case dependents =>
    intro dependency id
    rw [exists_pushedAs_snoc, ← tracks.dependents dependency id, members, order.mem_arrange,
      and_comm, eq_comm]
    rfl
  case count =>
    intro fits
    rw [List.length_nil, Nat.zero_add] at fits
    exact count fits

/-- A new job that misses nothing is runnable. -/
theorem Tracks.put_runnable (tracks : Tracks pushed [] s) (cached : Cached pushed s) {job : J.Job}
    (new : J.id job ∉ s.jobsDB) (ready : J.missingDependencies [] job = ∅) :
    let after := (s.putJob job).addRunnableJob (J.id job)
    Tracks (pushed ++ [job]) [] after ∧ Cached (pushed ++ [job]) after := by
  obtain ⟨jobs, count, cache⟩ := putJob_spec tracks cached new
  refine ⟨?_, cache⟩
  constructor
  case jobs => exact jobs
  case runnable =>
    intro id
    rw [exists_pushedAs_snoc, ← tracks.runnable id]
    simp only [State.addRunnableJob, State.putJob, mem_putKey, List.not_mem_nil,
      not_false_eq_true, ready, and_true]
    rw [or_comm, eq_comm]
  case distinct => exact nodup_putKey tracks.distinct
  case dependents =>
    intro dependency id
    rw [exists_pushedAs_snoc, ← tracks.dependents dependency id]
    simp [State.addRunnableJob, State.putJob, ready]
  case count =>
    intro fits
    rw [List.length_nil, Nat.zero_add] at fits
    exact count fits

/-- `Push` adds a job that is not there yet and leaves the queue as it is otherwise. -/
theorem push_tracks (tracks : Tracks pushed [] s) (cached : Cached pushed s)
    (order : IterationOrder ID) (job : J.Job) :
    Tracks (pushed ++ [job]) [] (push order [] job s).1 ∧
      Cached (pushed ++ [job]) (push order [] job s).1 ∧
      ((push order [] job s).2 = true ↔ job ∉ pushed) := by
  obtain ⟨jobsCache, found, kept⟩ := hasJob_spec tracks cached (J.id job)
  have moved : Tracks pushed [] { s with jobsCache := jobsCache } :=
    ⟨tracks.jobs, tracks.runnable, tracks.distinct, tracks.dependents, tracks.count⟩
  unfold push
  rw [found]
  by_cases stored : J.id job ∈ s.jobsDB
  · have member := (tracks.stored_iff job).mp stored
    simp only [stored, decide_true]
    refine ⟨moved.again member, ?_, by simp [member]⟩
    exact fun entry inside => (kept entry inside).append [job]
  · have new : job ∉ pushed := fun member => stored ((tracks.stored_iff job).mpr member)
    simp only [stored, decide_false]
    split
    · rename_i waits
      have missing : J.missingDependencies [] job ≠ ∅ := fun none => waits (by simp [none])
      obtain ⟨after, cache⟩ := moved.put_waiting kept stored missing order
      exact ⟨after, cache, by simp [new]⟩
    · rename_i ready
      obtain ⟨after, cache⟩ := moved.put_runnable kept stored (by simpa using ready)
      exact ⟨after, cache, by simp [new]⟩

/-- The new queue has neither jobs nor executions. -/
theorem newState_tracks : Tracks ([] : List J.Job) [] newState := by
  constructor
  case jobs => simp [newState, PushedAs]
  case runnable => simp [newState, PushedAs]
  case distinct => exact List.nodup_nil
  case dependents => simp [newState, PushedAs]
  case count => exact fun _ => rfl

/-- The state after any sequence of `Push` calls. -/
theorem pushAll_tracks (calls : List (J.Job × IterationOrder ID)) :
    Tracks (calls.map Prod.fst) [] (pushAll calls) := by
  have run : ∀ (pushed : List J.Job) (s : State J), Tracks pushed [] s → Cached pushed s →
      Tracks (pushed ++ calls.map Prod.fst) []
        (calls.foldl (fun s call => (push call.2 [] call.1 s).1) s) := by
    induction calls with
    | nil =>
      intro pushed s tracks _
      simpa using tracks
    | cons call rest inductionHypothesis =>
      intro pushed s tracks cached
      obtain ⟨next, nextCached, _⟩ := push_tracks tracks cached call.2 call.1
      have later := inductionHypothesis _ _ next nextCached
      rw [List.append_assoc] at later
      exact later
  exact run [] newState newState_tracks (fun _ member => absurd member List.not_mem_nil)

end Pushing

section Executing

variable {pushed : List J.Job} {executed : List ID} {s : State J}

/-- Without a cache, a job that waits is parsed from the database. -/
theorem getJob_spec (disabled : s.cachingEnabled = false) {id : ID} {job : J.Job}
    (found : s.jobsDB.lookup id = some (J.bytes job)) : s.getJob id = (s, .ok job) := by
  simp only [State.getJob, State.cachedJob, disabled, Bool.false_eq_true, if_false, found,
    J.parse_bytes]

/-- The first runnable job is taken out of the queue. -/
theorem removeRunnableJob_spec (tracks : Tracks pushed executed s)
    (disabled : s.cachingEnabled = false) {id : ID} {rest : List ID}
    (first : s.runnableJobIDs = id :: rest) :
    ∃ job, PushedAs pushed id job ∧ id ∉ executed ∧ J.missingDependencies executed job = ∅ ∧
      id ∈ s.jobsDB ∧
      s.removeRunnableJob =
        ({ s with
            runnableJobIDs := rest
            jobsDB := s.jobsDB.erase id
            numJobs := if s.numJobs = 0 then s.numJobs else s.numJobs - 1 }, .ok job) := by
  obtain ⟨job, own, left, ready⟩ := (tracks.runnable id).mp (first ▸ List.mem_cons_self)
  have found : s.jobsDB.lookup id = some (J.bytes job) :=
    (tracks.jobs id _).mpr ⟨job, own, rfl, left⟩
  have stored : id ∈ s.jobsDB := Finmap.mem_of_lookup_eq_some found
  refine ⟨job, own, left, ready, stored, ?_⟩
  have parsed := getJob_spec (s := { s with runnableJobIDs := rest }) disabled found
  unfold State.removeRunnableJob
  rw [first]
  simp only [List.head?_cons, List.erase_cons_head, parsed]
  split_ifs with none <;> rfl

/-- The dependents that miss nothing any more become runnable. -/
theorem releaseLoop_spec (executed : List ID) (disabled : s.cachingEnabled = false) (index : ℕ)
    (dependents : List ID)
    (stored : ∀ id ∈ dependents, ∃ job, PushedAs pushed id job ∧
      s.jobsDB.lookup id = some (J.bytes job)) :
    ∃ runnableJobIDs, forRangeFrom (releaseDependent executed) index dependents s =
        ({ s with runnableJobIDs := runnableJobIDs }, none) ∧
      (s.runnableJobIDs.Nodup → runnableJobIDs.Nodup) ∧
      ∀ id, id ∈ runnableJobIDs ↔ id ∈ s.runnableJobIDs ∨ id ∈ dependents ∧
        ∃ job, PushedAs pushed id job ∧ J.missingDependencies executed job = ∅ := by
  induction dependents generalizing s index with
  | nil => exact ⟨s.runnableJobIDs, rfl, id, by simp⟩
  | cons first rest inductionHypothesis =>
    obtain ⟨job, own, found⟩ := stored first List.mem_cons_self
    have later : ∀ id ∈ rest, ∃ job, PushedAs pushed id job ∧
        s.jobsDB.lookup id = some (J.bytes job) :=
      fun id member => stored id (List.mem_cons_of_mem first member)
    have body : releaseDependent executed index first s =
        if J.hasMissingDependencies executed job then (s, none)
        else (s.addRunnableJob first, none) := by
      unfold releaseDependent
      rw [getJob_spec disabled found]
    by_cases nothing : J.missingDependencies executed job = ∅
    · obtain ⟨runnableJobIDs, after, distinct, members⟩ :=
        inductionHypothesis (s := s.addRunnableJob first) disabled (index + 1) later
      refine ⟨runnableJobIDs, ?_, fun nodup => distinct (nodup_putKey nodup), ?_⟩
      · simp only [JobType.hasMissingDependencies, nothing, Finset.card_empty, ne_eq,
          not_true_eq_false, decide_false, Bool.false_eq_true, if_false] at body
        simp only [forRangeFrom, body]
        exact after
      · intro id
        rw [members id, List.mem_cons]
        simp only [State.addRunnableJob, mem_putKey]
        constructor
        · rintro ((rfl | earlier) | ⟨member, holds⟩)
          · exact Or.inr ⟨Or.inl rfl, job, own, nothing⟩
          · exact Or.inl earlier
          · exact Or.inr ⟨Or.inr member, holds⟩
        · rintro (earlier | ⟨rfl | member, holds⟩)
          · exact Or.inl (Or.inr earlier)
          · exact Or.inl (Or.inl rfl)
          · exact Or.inr ⟨member, holds⟩
    · obtain ⟨runnableJobIDs, after, distinct, members⟩ :=
        inductionHypothesis disabled (index + 1) later
      have some : (J.missingDependencies executed job).card ≠ 0 := by simpa using nothing
      refine ⟨runnableJobIDs, ?_, distinct, ?_⟩
      · simp only [JobType.hasMissingDependencies, some, ne_eq, not_false_eq_true, decide_true,
          if_true] at body
        simp only [forRangeFrom, body]
        exact after
      · intro id
        rw [members id, List.mem_cons]
        constructor
        · rintro (earlier | ⟨member, holds⟩)
          · exact Or.inl earlier
          · exact Or.inr ⟨Or.inr member, holds⟩
        · rintro (earlier | ⟨rfl | member, other, same, holds⟩)
          · exact Or.inl earlier
          · exact absurd (same.unique own ▸ holds) nothing
          · exact Or.inr ⟨member, other, same, holds⟩

/-- A job that has become ready was ready before or waited for the last execution. -/
theorem Ran.ready_snoc (ran : Ran pushed executed) {next id : ID} {job : J.Job}
    (own : PushedAs pushed next job) (ready : J.missingDependencies executed job = ∅) :
    (∃ other, PushedAs pushed id other ∧ id ∉ executed ++ [next] ∧
        J.missingDependencies (executed ++ [next]) other = ∅) ↔
      (id ≠ next ∧ ∃ other, PushedAs pushed id other ∧ id ∉ executed ∧
        J.missingDependencies executed other = ∅) ∨
      (∃ waiter, PushedAs pushed id waiter ∧ next ∈ J.missingDependencies executed waiter) ∧
        ∃ other, PushedAs pushed id other ∧
          J.missingDependencies (executed ++ [next]) other = ∅ := by
  constructor
  · rintro ⟨other, same, left, nothing⟩
    rw [List.mem_append, List.mem_singleton, not_or] at left
    by_cases before : J.missingDependencies executed other = ∅
    · exact Or.inl ⟨left.2, other, same, left.1, before⟩
    · obtain ⟨dependency, missing⟩ := Finset.nonempty_iff_ne_empty.mpr before
      have last : dependency = next := by
        by_contra different
        have still := mem_missingDependencies_snoc.mpr ⟨missing, different⟩
        rw [nothing] at still
        exact absurd still (Finset.notMem_empty dependency)
      exact Or.inr ⟨⟨other, same, last ▸ missing⟩, other, same, nothing⟩
  · rintro (⟨different, other, same, left, nothing⟩ |
      ⟨⟨waiter, known, needs⟩, other, same, nothing⟩)
    · refine ⟨other, same, by simp [left, different], ?_⟩
      rw [Finset.eq_empty_iff_forall_notMem] at nothing ⊢
      exact fun dependency missing => nothing dependency (mem_missingDependencies_snoc.mp missing).1
    · refine ⟨other, same, ?_, nothing⟩
      -- a job that still missed `next` was neither executed nor `next` itself
      rw [List.mem_append, List.mem_singleton, not_or]
      constructor
      · intro done
        rw [ran.missing done known.2] at needs
        exact absurd needs (Finset.notMem_empty next)
      · rintro rfl
        rw [known.unique own, ready] at needs
        exact absurd needs (Finset.notMem_empty id)

/-- One job is less in the database when it is deleted. -/
theorem card_keys_erase {id : ID} (stored : id ∈ s.jobsDB) :
    (s.jobsDB.erase id).keys.card + 1 = s.jobsDB.keys.card := by
  have keys : (s.jobsDB.erase id).keys = s.jobsDB.keys.erase id := by
    ext other
    rw [Finmap.mem_keys, Finmap.mem_erase, Finset.mem_erase, Finmap.mem_keys]
  rw [keys]
  exact Finset.card_erase_add_one (Finmap.mem_keys.mpr stored)

/-- The queue after the job `next` was taken out, executed and its dependents were released. -/
theorem round_tracks (tracks : Tracks pushed executed s) (ran : Ran pushed executed) {next : ID}
    {rest runnableJobIDs : List ID} {job : J.Job} (own : PushedAs pushed next job)
    (ready : J.missingDependencies executed job = ∅) (stored : next ∈ s.jobsDB)
    (first : s.runnableJobIDs = next :: rest) (distinct : rest.Nodup → runnableJobIDs.Nodup)
    (members : ∀ id, id ∈ runnableJobIDs ↔ id ∈ rest ∨ id ∈ s.dependentIDs next ∧
      ∃ job, PushedAs pushed id job ∧ J.missingDependencies (executed ++ [next]) job = ∅) :
    Tracks pushed (executed ++ [next])
      { s with
        runnableJobIDs := runnableJobIDs
        jobsDB := s.jobsDB.erase next
        dependentIDs := Function.update s.dependentIDs next []
        numJobs := if s.numJobs = 0 then s.numJobs else s.numJobs - 1 } := by
  have apart := tracks.distinct
  rw [first, List.nodup_cons] at apart
  have waiting : ∀ id, id ∈ rest ↔ id ≠ next ∧ id ∈ s.runnableJobIDs := by
    intro id
    rw [first, List.mem_cons]
    constructor
    · intro member
      exact ⟨fun same => apart.1 (same ▸ member), Or.inr member⟩
    · rintro ⟨different, same | member⟩
      · exact absurd same different
      · exact member
  constructor
  case jobs =>
    intro id bytes
    simp only [List.mem_append, List.mem_singleton, not_or]
    by_cases same : id = next
    · subst same
      simp
    · rw [Finmap.lookup_erase_ne same, tracks.jobs id bytes]
      simp [same]
  case runnable =>
    intro id
    rw [members, waiting, tracks.runnable, tracks.dependents, ran.ready_snoc own ready]
  case distinct => exact distinct apart.2
  case dependents =>
    intro dependency id
    simp only [mem_missingDependencies_snoc]
    by_cases same : dependency = next
    · subst same
      simp
    · rw [Function.update_of_ne same, tracks.dependents]
      simp [same]
  case count =>
    intro fits
    have fewer := card_keys_erase stored
    have before : s.numJobs.toNat = s.jobsDB.keys.card := by
      apply tracks.count
      simp only [List.length_append, List.length_singleton] at fits
      omega
    have some : s.numJobs ≠ 0 := by
      intro zero
      rw [zero, UInt64.toNat_zero] at before
      omega
    have least : 1 ≤ s.numJobs := by
      rw [UInt64.le_iff_toNat_le, before, UInt64.toNat_one]
      omega
    dsimp only
    rw [if_neg some, UInt64.toNat_sub_of_le s.numJobs 1 least, before, UInt64.toNat_one]
    omega

/-- The executed jobs with the next one. -/
theorem Ran.snoc (ran : Ran pushed executed) {next : ID} {job : J.Job}
    (own : PushedAs pushed next job) (left : next ∉ executed)
    (ready : J.missingDependencies executed job = ∅) : Ran pushed (executed ++ [next]) := by
  refine ⟨?_, ?_, ran.respects.snoc ?_⟩
  · rw [List.nodup_append']
    exact ⟨ran.distinct, List.nodup_singleton next, by simpa using left⟩
  · intro id member
    rcases List.mem_append.mp member with earlier | last
    · exact ran.inside id earlier
    · exact List.mem_singleton.mp last ▸ ⟨job, own⟩
  · rintro dependency ⟨other, same, needed⟩
    by_contra absent
    rw [J.id_injective (same.trans own.2.symm)] at needed
    have missing := mem_missingDependencies.mpr ⟨needed, absent⟩
    rw [ready] at missing
    exact absurd missing (Finset.notMem_empty dependency)

/-- The loop runs until no job is runnable and executes one job in each round. -/
theorem executeLoop_spec (tracks : Tracks pushed executed s) (ran : Ran pushed executed)
    (disabled : s.cachingEnabled = false) (fuel : ℕ) (enough : s.jobsDB.keys.card < fuel) :
    ∃ outcome, executeLoop .succeed fuel executed.length s executed = some outcome ∧
      outcome.result = .ok outcome.executed.length ∧ outcome.state.runnableJobIDs = [] ∧
      Tracks pushed outcome.executed outcome.state ∧ Ran pushed outcome.executed := by
  induction fuel generalizing s executed with
  | zero => exact absurd enough (Nat.not_lt_zero _)
  | succ fuel inductionHypothesis =>
    cases first : s.runnableJobIDs with
    | nil =>
      refine ⟨⟨s, executed, .ok executed.length⟩, ?_, rfl, first, tracks, ran⟩
      simp [executeLoop, Replies.succeed, State.removeRunnableJob, first]
    | cons next rest =>
      obtain ⟨job, own, left, ready, stored, removed⟩ :=
        removeRunnableJob_spec tracks disabled first
      let after : State J :=
        { s with
          runnableJobIDs := rest
          jobsDB := s.jobsDB.erase next
          dependentIDs := Function.update s.dependentIDs next []
          numJobs := if s.numJobs = 0 then s.numJobs else s.numJobs - 1 }
      have dependents : ∀ id ∈ s.dependentIDs next, ∃ job, PushedAs pushed id job ∧
          after.jobsDB.lookup id = some (J.bytes job) := by
        intro id member
        obtain ⟨waiter, known, needs⟩ := (tracks.dependents next id).mp member
        have different : id ≠ next := by
          rintro rfl
          rw [known.unique own, ready] at needs
          exact absurd needs (Finset.notMem_empty id)
        have waits : id ∉ executed := by
          intro done
          rw [ran.missing done known.2] at needs
          exact absurd needs (Finset.notMem_empty next)
        refine ⟨waiter, known, ?_⟩
        rw [Finmap.lookup_erase_ne different]
        exact (tracks.jobs id _).mpr ⟨waiter, known, rfl, waits⟩
      obtain ⟨runnableJobIDs, released, distinct, members⟩ :=
        releaseLoop_spec (s := after) (executed ++ [next]) disabled 0 (s.dependentIDs next)
          dependents
      have nextTracks := round_tracks tracks ran own ready stored first distinct members
      have fewer : (s.jobsDB.erase next).keys.card < fuel := by
        have one := card_keys_erase stored
        omega
      obtain ⟨outcome, finished, result⟩ := inductionHypothesis nextTracks
        (ran.snoc own left ready) disabled fewer
      refine ⟨outcome, ?_, result⟩
      rw [← finished, List.length_append, List.length_singleton]
      simp only [executeLoop, Replies.succeed, removed, own.2, State.removeDependencies, forRange]
      simp only [after] at released
      rw [released]
      rfl

end Executing

/-- The ID was pushed, and so were all IDs it depends on. -/
def Complete (J : JobType ID) (pushed : List J.Job) (id : ID) : Prop :=
  id ∈ pushed.map J.id ∧
    ∀ dependency, Relation.TransGen (DependsOn J) id dependency → dependency ∈ pushed.map J.id

/-- After any sequence of `Push` calls, `ExecuteAll` executes exactly the jobs whose dependencies
are all there, each once and after its dependencies, and leaves exactly the others. As long as the
number of different jobs fits the 64 bits of the counter, it counts those that are left. -/
theorem executeAll_in_order (J : JobType ID) (acyclic : Acyclic (DependsOn J))
    (calls : List (J.Job × IterationOrder ID)) :
    ∃ outcome, executeAll .succeed (pushAll calls) [] = some outcome ∧
      outcome.result = .ok outcome.executed.length ∧
      (∀ id, id ∈ outcome.executed ↔ Complete J (calls.map Prod.fst) id) ∧
      outcome.executed.Nodup ∧ Respects (DependsOn J) outcome.executed ∧
      (((calls.map Prod.fst).map J.id).toFinset.card < UInt64.size →
        outcome.state.pendingJobs.toNat = outcome.state.jobsDB.keys.card) ∧
      ∀ id, id ∈ outcome.state.jobsDB ↔
        id ∈ (calls.map Prod.fst).map J.id ∧ ¬ Complete J (calls.map Prod.fst) id := by
  have tracks := pushAll_tracks calls
  have start : Tracks (calls.map Prod.fst) [] (pushAll calls).disableCaching :=
    ⟨tracks.jobs, tracks.runnable, tracks.distinct, tracks.dependents, tracks.count⟩
  have nothingRan : Ran (calls.map Prod.fst) ([] : List ID) := by
    refine ⟨List.nodup_nil, fun _ member => absurd member List.not_mem_nil, ?_⟩
    intro before element after split
    exact absurd split.symm (by simp)
  obtain ⟨outcome, finished, result, done, after, ran⟩ :=
    executeLoop_spec start nothingRan rfl ((pushAll calls).jobsDB.keys.card + 1)
      (Nat.lt_succ_self _)
  have pushedIDs : ∀ id, id ∈ (calls.map Prod.fst).map J.id ↔
      ∃ job, PushedAs (calls.map Prod.fst) id job := by
    intro id
    rw [List.mem_map]
    rfl
  have exhausted : Exhausted (DependsOn J) ((calls.map Prod.fst).map J.id).toFinset
      outcome.executed := by
    intro id available left
    obtain ⟨job, own⟩ := (pushedIDs id).mp (List.mem_toFinset.mp available)
    by_contra ready
    have runnable : id ∈ outcome.state.runnableJobIDs := by
      refine (after.runnable id).mpr ⟨job, own, left, ?_⟩
      rw [Finset.eq_empty_iff_forall_notMem]
      intro dependency missing
      obtain ⟨needed, absent⟩ := mem_missingDependencies.mp missing
      exact ready ⟨dependency, ⟨job, own.2, needed⟩, absent⟩
    rw [done] at runnable
    exact absurd runnable List.not_mem_nil
  have complete : ∀ id, id ∈ outcome.executed ↔ Complete J (calls.map Prod.fst) id := by
    intro id
    have exactly := executed_iff acyclic ((calls.map Prod.fst).map J.id).toFinset
      (fun other member => List.mem_toFinset.mpr ((pushedIDs other).mpr (ran.inside other member)))
      ran.respects exhausted id
    simp only [List.mem_toFinset] at exactly
    exact exactly
  refine ⟨outcome, finished, result, complete, ran.distinct, ran.respects, ?_, ?_⟩
  · intro fits
    exact after.count (Nat.lt_of_le_of_lt (after.card_le ran) fits)
  intro id
  rw [after.mem_jobsDB, ← complete, pushedIDs]

/-- Numbers as jobs, with the given dependencies. -/
def numberedJobs (dependencies : ℕ → Finset ℕ) : JobType ℕ where
  Job := ℕ
  Bytes := ℕ
  id := id
  bytes := id
  parse := some
  dependencies := dependencies
  id_injective := Function.injective_id
  parse_bytes := fun _ => rfl

/-- Job 3 needs 2, which needs 1; job 5 needs 4. -/
def fiveNeeds (job : ℕ) : Finset ℕ :=
  if job = 3 then {2} else if job = 2 then {1} else if job = 5 then {4} else ∅

def fiveJobs : JobType ℕ := numberedJobs fiveNeeds

/-- Without job 4, the jobs 1, 2 and 3 are executed in this order, and job 5 is left. -/
theorem executes_one_two_three :
    let calls : List (fiveJobs.Job × IterationOrder ℕ) :=
      [((3 : ℕ), .increasing), ((5 : ℕ), .increasing), ((2 : ℕ), .increasing),
        ((1 : ℕ), .increasing), ((3 : ℕ), .increasing)]
    Acyclic (DependsOn fiveJobs) ∧
      ∃ outcome, executeAll .succeed (pushAll calls) [] = some outcome ∧
        outcome.executed = [1, 2, 3] ∧ outcome.state.pendingJobs = 1 ∧
        (5 ∈ outcome.state.jobsDB ↔ 5 ∈ (calls.map Prod.fst).map fiveJobs.id ∧
          ¬ Complete fiveJobs (calls.map Prod.fst) 5) := by
  intro calls
  have needs : ∀ job : ℕ, ∀ second ∈ fiveNeeds job, second < job := by
    intro job second needed
    unfold fiveNeeds at needed
    split_ifs at needed <;> simp at needed <;> omega
  have downward : ∀ first second, DependsOn fiveJobs first second → second < first := by
    rintro first second ⟨job, rfl, needed⟩
    exact needs job second needed
  have acyclic : Acyclic (DependsOn fiveJobs) := by
    intro element cycle
    have smaller : ∀ last, Relation.TransGen (DependsOn fiveJobs) element last →
        last < element := by
      intro last path
      induction path with
      | single edge => exact downward _ _ edge
      | tail _ edge below => exact Nat.lt_trans (downward _ _ edge) below
    exact absurd (smaller element cycle) (Nat.lt_irrefl element)
  obtain ⟨outcome, finished, _, _, _, _, _, left⟩ :=
    executeAll_in_order fiveJobs acyclic calls
  refine ⟨acyclic, outcome, finished, ?_, ?_, left 5⟩
  · have order : (executeAll .succeed (pushAll calls) []).map Executed.executed =
        some [1, 2, 3] := by decide +kernel
    rw [finished] at order
    exact Option.some.inj order
  · have count : (executeAll .succeed (pushAll calls) []).map
        (fun outcome => outcome.state.pendingJobs) = some 1 := by decide +kernel
    rw [finished] at count
    exact Option.some.inj count

end AvalancheParallel.Bootstrap
