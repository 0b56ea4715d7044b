import AvalancheParallel.Foundation.ListUpdate
import AvalancheParallel.Foundation.Schedules
import Mathlib.Data.List.Perm.Subperm
import Mathlib.Data.Int.Notation

/-!
# The default vertex processor

`DefaultVertexProcessor` of `pkg/consensus/dag.go`. `ProcessBatch` starts a goroutine
for each vertex behind a semaphore with `maxWorkers` slots, waits for all of them at a
wait group, closes the channel of errors and returns the first error in it. The model
takes one operation on the semaphore, the wait group or the channel at a time, so that
a schedule is any interleaving of the caller and the goroutines. The calls that
`Process` makes on a vertex are answered when it returns; a panic of the runtime is a
state of its own.
-/

namespace AvalancheParallel.Consensus

open AvalancheParallel.ListUpdate

/-- What the calls that `Process` makes on its vertex answer: `Verify`, `Txs` and the `Verify` of
each transaction. -/
structure VertexAnswers (ε : Type) where
  verify : Option ε
  txs : Except ε (List (Option ε))

instance {ε : Type} : Inhabited (VertexAnswers ε) := ⟨⟨none, .ok []⟩⟩

/-- `Process`, with its error. -/
def process {ε : Type} (answers : VertexAnswers ε) : Option ε :=
  match answers.verify with
  | some err => some err
  | none =>
    match answers.txs with
    | .error err => some err
    | .ok txs => txs.findSome? id

/-- `DefaultVertexProcessor`: its semaphore has at least one slot. -/
structure DefaultVertexProcessor where
  maxWorkers : ℕ
  positive : 1 ≤ maxWorkers

/-- `NewDefaultVertexProcessor`. -/
def newDefaultVertexProcessor (maxWorkers : ℤ) : DefaultVertexProcessor :=
  if unset : maxWorkers ≤ 0 then ⟨4, by omega⟩ else ⟨maxWorkers.toNat, by omega⟩

namespace ProcessBatch

/-- Where a goroutine of `ProcessBatch` stands. -/
inductive Phase (ε : Type) where
  | spawned
  | calling
  | sending (err : ε)
  | releasing
  | finishing
  | finished
deriving DecidableEq

/-- A goroutine with the vertex it was started for. -/
structure Worker (V ε : Type) where
  vertex : V
  phase : Phase ε

/-- Where the caller stands. -/
inductive Caller (V ε : Type) where
  | loop
  | acquiring (vertex : V)
  | spawning (vertex : V)
  | waiting
  | closing
  | draining
  | returned (result : Option ε)

/-- A running call. The entries of `pending` have not been reached by the loop, and the goroutine
of entry `index` is `workers[index]`. The calls of `Process` and their results are logged. -/
structure Call (V ε : Type) where
  caller : Caller V ε
  pending : List V
  workers : List (Worker V ε)
  wg : ℕ
  semaphore : ℕ
  errs : List ε
  closed : Bool
  panicked : Bool
  called : List (V × ℕ)
  answered : List ((V × ℕ) × Option ε)

/-- The caller or a goroutine moves; the answers are used when `Process` returns. -/
inductive Turn (ε : Type) where
  | caller
  | worker (index : ℕ) (answers : VertexAnswers ε)

variable {V ε : Type}

/-- The call begins. -/
def start (vertices : List V) : Call V ε :=
  ⟨.loop, vertices, [], 0, 0, [], false, false, [], []⟩

/-- The next operation of the caller. -/
def callerStep (p : DefaultVertexProcessor) (call : Call V ε) : Option (Call V ε) :=
  match call.caller with
  | .loop =>
    match call.pending with
    | vertex :: rest =>
      some { call with caller := .acquiring vertex, pending := rest, wg := call.wg + 1 }
    | [] => some { call with caller := .waiting }
  | .acquiring vertex =>
    if call.semaphore < p.maxWorkers then
      some { call with caller := .spawning vertex, semaphore := call.semaphore + 1 }
    else none
  | .spawning vertex =>
    some { call with caller := .loop, workers := call.workers ++ [⟨vertex, .spawned⟩] }
  | .waiting => if call.wg = 0 then some { call with caller := .closing } else none
  | .closing => some { call with caller := .draining, closed := true }
  | .draining =>
    match call.errs with
    | err :: rest => some { call with caller := .returned (some err), errs := rest }
    | [] => if call.closed then some { call with caller := .returned none } else none
  | .returned _ => none

/-- The goroutine moves on to another phase. -/
@[simps] def Call.move (call : Call V ε) (index : ℕ) (worker : Worker V ε) (phase : Phase ε) :
    Call V ε :=
  { call with workers := call.workers.set index { worker with phase := phase } }

/-- The next operation of the goroutine for entry `index` of a list of `capacity` vertices. A send
on a closed channel and a negative wait group panic. -/
def workerStep (capacity index : ℕ) (answers : VertexAnswers ε) (call : Call V ε) :
    Option (Call V ε) :=
  match call.workers[index]? with
  | none => none
  | some worker =>
    match worker.phase with
    | .spawned =>
      some { call.move index worker .calling with
        called := call.called ++ [(worker.vertex, index)] }
    | .calling =>
      let phase := match process answers with
        | none => .releasing
        | some err => .sending err
      some { call.move index worker phase with
        answered := call.answered ++ [((worker.vertex, index), process answers)] }
    | .sending err =>
      if call.closed then some { call with panicked := true }
      else if call.errs.length < capacity then
        some { call.move index worker .releasing with errs := call.errs ++ [err] }
      else none
    | .releasing =>
      if call.semaphore = 0 then none
      else some { call.move index worker .finishing with semaphore := call.semaphore - 1 }
    | .finishing =>
      if call.wg = 0 then some { call with panicked := true }
      else some { call.move index worker .finished with wg := call.wg - 1 }
    | .finished => none

/-- One step of `ProcessBatch` on a list of `capacity` vertices. A panic ends the program. -/
def step (p : DefaultVertexProcessor) (capacity : ℕ) (call : Call V ε) (turn : Turn ε) :
    Option (Call V ε) :=
  if call.panicked then none
  else
    match turn with
    | .caller => callerStep p call
    | .worker index answers => workerStep capacity index answers call

/-- The goroutine holds a slot of the semaphore. -/
@[simp] def Phase.holds : Phase ε → Bool
  | .spawned | .calling | .sending _ | .releasing => true
  | .finishing | .finished => false

/-- The goroutine has not called `Done`. -/
@[simp] def Phase.unfinished : Phase ε → Bool
  | .finished => false
  | _ => true

/-- The call of `Process` is in flight. -/
@[simp] def Phase.inFlight : Phase ε → Bool
  | .calling => true
  | _ => false

/-- `Process` has been called. -/
@[simp] def Phase.begun : Phase ε → Bool
  | .spawned => false
  | _ => true

/-- `Process` has returned. -/
@[simp] def Phase.answered : Phase ε → Bool
  | .spawned | .calling => false
  | _ => true

/-- The error that the goroutine is about to send. -/
@[simp] def Phase.unsent : Phase ε → Option ε
  | .sending err => some err
  | _ => none

/-- The entry that the loop is at. -/
@[simp] def Caller.vertex? : Caller V ε → Option V
  | .acquiring vertex | .spawning vertex => some vertex
  | _ => none

/-- The slots acquired for a goroutine that is not started yet. -/
@[simp] def Caller.acquired : Caller V ε → ℕ
  | .spawning _ => 1
  | _ => 0

/-- What the wait group counts for a goroutine that is not started yet. -/
@[simp] def Caller.added : Caller V ε → ℕ
  | .acquiring _ | .spawning _ => 1
  | _ => 0

/-- The error received from the channel. -/
@[simp] def Caller.received : Caller V ε → List ε
  | .returned (some err) => [err]
  | _ => []

@[simp] def Caller.afterLoop : Caller V ε → Bool
  | .waiting | .closing | .draining | .returned _ => true
  | _ => false

@[simp] def Caller.afterWait : Caller V ε → Bool
  | .closing | .draining | .returned _ => true
  | _ => false

@[simp] def Caller.afterClose : Caller V ε → Bool
  | .draining | .returned _ => true
  | _ => false

/-- How the counters, the channel and the logs belong to the goroutines, given with their entries
in any order. -/
structure Accounted (p : DefaultVertexProcessor) (call : Call V ε)
    (entries : List (Worker V ε × ℕ)) : Prop where
  semaphore : call.semaphore =
    entries.countP (fun entry => entry.1.phase.holds) + call.caller.acquired
  bounded : call.semaphore ≤ p.maxWorkers
  wg : call.wg = entries.countP (fun entry => entry.1.phase.unfinished) + call.caller.added
  errs : (call.caller.received ++ (call.errs ++
      entries.filterMap (fun entry => entry.1.phase.unsent))).Perm
    (call.answered.filterMap Prod.snd)
  called : call.called.Perm ((entries.filter (fun entry => entry.1.phase.begun)).map
    (fun entry => (entry.1.vertex, entry.2)))
  answered : (call.answered.map Prod.fst).Perm
    ((entries.filter (fun entry => entry.1.phase.answered)).map
      (fun entry => (entry.1.vertex, entry.2)))

/-- What holds in every state of a call on the vertices. -/
structure Sound (p : DefaultVertexProcessor) (vertices : List V) (call : Call V ε) : Prop where
  intact : call.panicked = false
  vertices : call.workers.map Worker.vertex ++ (call.caller.vertex?.toList ++ call.pending) =
    vertices
  looped : call.caller.afterLoop = true → call.pending = []
  waited : call.caller.afterWait = true → call.wg = 0
  closed : call.closed = call.caller.afterClose
  drained : call.caller = .returned none → call.errs = []
  accounted : Accounted p call call.workers.zipIdx

/-- The order of the goroutines does not matter for the accounts. -/
theorem Accounted.perm {p : DefaultVertexProcessor} {call : Call V ε}
    {entries others : List (Worker V ε × ℕ)} (accounted : Accounted p call entries)
    (perm : entries.Perm others) : Accounted p call others := by
  constructor
  · rw [← perm.countP_eq]
    exact accounted.semaphore
  · exact accounted.bounded
  · rw [← perm.countP_eq]
    exact accounted.wg
  · have unsent := perm.filterMap (fun entry => entry.1.phase.unsent)
    exact (((unsent.append_left call.errs).append_left _).symm).trans accounted.errs
  · exact accounted.called.trans ((perm.filter _).map _)
  · exact accounted.answered.trans ((perm.filter _).map _)

/-- The call starts in order. -/
theorem start_sound (p : DefaultVertexProcessor) (vertices : List V) :
    Sound p vertices (start vertices : Call V ε) := by
  constructor
  case accounted => constructor <;> simp [start, Caller.acquired, Caller.added, Caller.received]
  all_goals simp [start, Caller.vertex?, Caller.afterLoop, Caller.afterWait, Caller.afterClose]

variable {p : DefaultVertexProcessor} {vertices : List V} {call next : Call V ε}

/-- A step of the caller keeps the call in order. -/
theorem callerStep_sound (sound : Sound p vertices call) (taken : callerStep p call = some next) :
    Sound p vertices next := by
  obtain ⟨intact, listed, looped, waited, closed, drained, accounted⟩ := sound
  obtain ⟨semaphore, bounded, wg, errs, called, answered⟩ := accounted
  obtain ⟨caller, pending, workers, counter, slots, buffer, shut, panicked, log, results⟩ := call
  cases caller with
  | loop =>
    cases pending with
    | nil =>
      obtain rfl := Option.some.inj taken
      exact ⟨intact, listed, fun _ => rfl, nofun, closed, nofun,
        semaphore, bounded, wg, errs, called, answered⟩
    | cons vertex rest =>
      obtain rfl := Option.some.inj taken
      exact ⟨intact, listed, nofun, nofun, closed, nofun,
        semaphore, bounded, congrArg (· + 1) wg, errs, called, answered⟩
  | acquiring vertex =>
    simp only [callerStep, Option.ite_none_right_eq_some, Option.some.injEq] at taken
    obtain ⟨free, rfl⟩ := taken
    exact ⟨intact, listed, nofun, nofun, closed, nofun,
      congrArg (· + 1) semaphore, free, wg, errs, called, answered⟩
  | spawning vertex =>
    obtain rfl := Option.some.inj taken
    let worker : Worker V ε := ⟨vertex, .spawned⟩
    have joined : (workers ++ [worker]).zipIdx = workers.zipIdx ++ [(worker, workers.length)] := by
      simp [List.zipIdx_append]
    refine ⟨intact, ?_, nofun, nofun, closed, nofun, ?_⟩
    · simpa using listed
    · change Accounted p _ (workers ++ [worker]).zipIdx
      rw [joined]
      exact ⟨by simpa [worker] using semaphore, bounded, by simpa [worker] using wg,
        by simpa [worker] using errs, by simpa [worker] using called,
        by simpa [worker] using answered⟩
  | waiting =>
    simp only [callerStep, Option.ite_none_right_eq_some, Option.some.injEq] at taken
    obtain ⟨done, rfl⟩ := taken
    exact ⟨intact, listed, looped, fun _ => done, closed, nofun,
      semaphore, bounded, wg, errs, called, answered⟩
  | closing =>
    obtain rfl := Option.some.inj taken
    exact ⟨intact, listed, looped, waited, rfl, nofun,
      semaphore, bounded, wg, errs, called, answered⟩
  | draining =>
    cases buffer with
    | nil =>
      simp only [callerStep, Option.ite_none_right_eq_some, Option.some.injEq] at taken
      obtain ⟨_, rfl⟩ := taken
      exact ⟨intact, listed, looped, waited, closed, fun _ => rfl,
        semaphore, bounded, wg, errs, called, answered⟩
    | cons err rest =>
      obtain rfl := Option.some.inj taken
      exact ⟨intact, listed, looped, waited, closed, nofun,
        semaphore, bounded, wg, errs, called, answered⟩
  | returned result => cases taken

/-- A goroutine that is not finished keeps the wait group above zero, so the caller has neither
closed the channel nor returned. -/
theorem Sound.before_wait (sound : Sound p vertices call) {index : ℕ} {worker : Worker V ε}
    (here : call.workers[index]? = some worker) (unfinished : worker.phase.unfinished = true) :
    1 ≤ call.wg ∧ call.caller.afterWait = false := by
  obtain ⟨others, before, _⟩ := zipIdx_set_perm here 0
  have counted := (sound.accounted.perm before).wg
  simp only [List.countP_cons, unfinished, if_true] at counted
  have positive : 1 ≤ call.wg := by omega
  refine ⟨positive, ?_⟩
  by_contra after
  have zero := sound.waited (by simpa using after)
  omega

/-- A goroutine that moves on and accounts for what it does keeps the call sound. -/
theorem Sound.move (sound : Sound p vertices call) {index : ℕ} {worker : Worker V ε}
    (here : call.workers[index]? = some worker) (unfinished : worker.phase.unfinished = true)
    (phase : Phase ε) (moved : next.workers = (call.move index worker phase).workers)
    (caller : next.caller = call.caller) (pending : next.pending = call.pending)
    (closed : next.closed = call.closed) (panicked : next.panicked = call.panicked)
    (accounted : ∀ others, Accounted p call ((worker, index) :: others) →
      Accounted p next (({ worker with phase := phase }, index) :: others)) :
    Sound p vertices next := by
  obtain ⟨others, before, after⟩ := zipIdx_set_perm here 0
  have waiting := (sound.before_wait here unfinished).2
  rw [Nat.zero_add] at before
  constructor
  · rw [panicked]
    exact sound.intact
  · rw [moved, caller, pending, Call.move, List.map_set]
    obtain ⟨inside, rfl⟩ := List.getElem?_eq_some_iff.mp here
    have same : (call.workers.map Worker.vertex).set index (call.workers[index].vertex) =
        call.workers.map Worker.vertex := by
      apply List.ext_getElem (by simp)
      intro position _ _
      by_cases own : index = position
      · subst own
        simp
      · simp [own]
    rw [same]
    exact sound.vertices
  · rw [caller, pending]
    exact sound.looped
  · rw [caller, waiting]
    exact nofun
  · rw [closed, caller]
    exact sound.closed
  · intro returned
    rw [← caller, returned] at waiting
    cases waiting
  · rw [moved]
    have replaced := after { worker with phase := phase }
    rw [Nat.zero_add] at replaced
    exact (accounted others (sound.accounted.perm before)).perm replaced.symm

section Moves

variable {others : List (Worker V ε × ℕ)} {vertex : V} {index : ℕ}

/-- A goroutine that calls `Process` is logged. -/
theorem Accounted.begin
    (accounted : Accounted p call ((⟨vertex, .spawned⟩, index) :: others)) :
    Accounted p { call.move index ⟨vertex, .spawned⟩ .calling with
      called := call.called ++ [(vertex, index)] } ((⟨vertex, .calling⟩, index) :: others) := by
  obtain ⟨semaphore, bounded, wg, errs, called, answered⟩ := accounted
  refine ⟨by simpa using semaphore, bounded, by simpa using wg, by simpa using errs, ?_,
    by simpa using answered⟩
  have before : call.called.Perm ((others.filter (fun entry => entry.1.phase.begun)).map
      (fun entry => (entry.1.vertex, entry.2))) := by simpa using called
  simpa using (List.perm_append_singleton _ _).trans (before.cons (vertex, index))

/-- So is the result of the call, and an error is about to be sent. -/
theorem Accounted.answer
    (accounted : Accounted p call ((⟨vertex, .calling⟩, index) :: others)) (result : Option ε) :
    let phase := match result with
      | none => .releasing
      | some err => .sending err
    Accounted p { call.move index ⟨vertex, .calling⟩ phase with
      answered := call.answered ++ [((vertex, index), result)] }
      ((⟨vertex, phase⟩, index) :: others) := by
  obtain ⟨semaphore, bounded, wg, errs, called, answered⟩ := accounted
  have before : (call.answered.map Prod.fst).Perm
      ((others.filter (fun entry => entry.1.phase.answered)).map
        (fun entry => (entry.1.vertex, entry.2))) := by simpa using answered
  have logged := (List.perm_append_singleton _ _).trans (before.cons (vertex, index))
  cases result with
  | none =>
    exact ⟨by simpa using semaphore, bounded, by simpa using wg, by simpa using errs,
      by simpa using called, by simpa using logged⟩
  | some err =>
    refine ⟨by simpa using semaphore, bounded, by simpa using wg, ?_,
      by simpa using called, by simpa using logged⟩
    let unsent := others.filterMap (fun entry => entry.1.phase.unsent)
    have before : ((call.caller.received ++ call.errs) ++ unsent).Perm
        (call.answered.filterMap Prod.snd) := by simpa [unsent] using errs
    have sent : ((call.caller.received ++ call.errs) ++ err :: unsent).Perm
        (call.answered.filterMap Prod.snd ++ [err]) :=
      List.perm_middle.trans ((before.cons err).trans (List.perm_append_singleton err _).symm)
    simpa [unsent] using sent

/-- Sending an error is accounted for. -/
theorem Accounted.send {err : ε}
    (accounted : Accounted p call ((⟨vertex, .sending err⟩, index) :: others)) :
    Accounted p { call.move index ⟨vertex, .sending err⟩ .releasing with
      errs := call.errs ++ [err] } ((⟨vertex, .releasing⟩, index) :: others) := by
  obtain ⟨semaphore, bounded, wg, errs, called, answered⟩ := accounted
  exact ⟨by simpa using semaphore, bounded, by simpa using wg, by simpa using errs,
    by simpa using called, by simpa using answered⟩

/-- Releasing the semaphore is accounted for. -/
theorem Accounted.release
    (accounted : Accounted p call ((⟨vertex, .releasing⟩, index) :: others)) :
    Accounted p { call.move index ⟨vertex, .releasing⟩ .finishing with
      semaphore := call.semaphore - 1 } ((⟨vertex, .finishing⟩, index) :: others) := by
  obtain ⟨semaphore, bounded, wg, errs, called, answered⟩ := accounted
  refine ⟨?_, Nat.le_trans (Nat.sub_le _ _) bounded, by simpa using wg, by simpa using errs,
    by simpa using called, by simpa using answered⟩
  simp only [List.countP_cons, Phase.holds, if_true, Bool.false_eq_true, if_false]
    at semaphore ⊢
  change call.semaphore - 1 = _ + 0 + call.caller.acquired
  omega

/-- Leaving the wait group is accounted for. -/
theorem Accounted.done
    (accounted : Accounted p call ((⟨vertex, .finishing⟩, index) :: others)) :
    Accounted p { call.move index ⟨vertex, .finishing⟩ .finished with wg := call.wg - 1 }
      ((⟨vertex, .finished⟩, index) :: others) := by
  obtain ⟨semaphore, bounded, wg, errs, called, answered⟩ := accounted
  refine ⟨by simpa using semaphore, bounded, ?_, by simpa using errs,
    by simpa using called, by simpa using answered⟩
  simp only [List.countP_cons, Phase.unfinished, if_true, Bool.false_eq_true, if_false] at wg ⊢
  change call.wg - 1 = _ + 0 + call.caller.added
  omega

end Moves

/-- A step of a worker keeps the call in order. -/
theorem workerStep_sound {index : ℕ} {answers : VertexAnswers ε} (sound : Sound p vertices call)
    (taken : workerStep vertices.length index answers call = some next) :
    Sound p vertices next := by
  cases here : call.workers[index]? with
  | none => simp [workerStep, here] at taken
  | some worker =>
    obtain ⟨vertex, phase⟩ := worker
    cases phase with
    | spawned =>
      simp only [workerStep, here, Option.some.injEq] at taken
      subst taken
      exact sound.move here rfl .calling rfl rfl rfl rfl rfl (fun _ => Accounted.begin)
    | calling =>
      simp only [workerStep, here, Option.some.injEq] at taken
      subst taken
      exact sound.move here rfl _ rfl rfl rfl rfl rfl
        (fun _ accounted => accounted.answer (process answers))
    | sending err =>
      -- The caller closes the channel only after this goroutine is done.
      have waiting := (sound.before_wait here rfl).2
      have opened : call.closed = false := by
        rw [sound.closed]
        cases stands : call.caller <;> simp_all
      simp only [workerStep, here, opened, Bool.false_eq_true, if_false,
        Option.ite_none_right_eq_some, Option.some.injEq] at taken
      obtain ⟨_, rfl⟩ := taken
      exact sound.move here rfl .releasing rfl rfl rfl rfl rfl (fun _ => Accounted.send)
    | releasing =>
      simp only [workerStep, here, Option.ite_none_left_eq_some, Option.some.injEq] at taken
      obtain ⟨_, rfl⟩ := taken
      exact sound.move here rfl .finishing rfl rfl rfl rfl rfl (fun _ => Accounted.release)
    | finishing =>
      have positive := (sound.before_wait here rfl).1
      simp only [workerStep, here, Nat.ne_of_gt positive, if_false, Option.some.injEq] at taken
      subst taken
      exact sound.move here rfl .finished rfl rfl rfl rfl rfl (fun _ => Accounted.done)
    | finished => simp [workerStep, here] at taken

/-- Every step keeps the call in order. -/
theorem step_sound {turn : Turn ε} (sound : Sound p vertices call)
    (taken : step p vertices.length call turn = some next) : Sound p vertices next := by
  simp only [step, sound.intact, Bool.false_eq_true, if_false] at taken
  cases turn with
  | caller => exact callerStep_sound sound taken
  | worker index answers => exact workerStep_sound sound taken

/-- There are at most as many errors as answered calls, and at most as many of these as vertices,
so the channel has room for the error of a goroutine. -/
theorem Sound.errs_lt (sound : Sound p vertices call) {index : ℕ} {vertex : V} {err : ε}
    (here : call.workers[index]? = some ⟨vertex, .sending err⟩) :
    call.errs.length < vertices.length := by
  obtain ⟨others, before, _⟩ := zipIdx_set_perm here 0
  have accounted := sound.accounted.perm before
  have sent : call.errs.length + 1 ≤ call.answered.length := by
    have counted := accounted.errs.length_eq
    have fewer := List.length_filterMap_le Prod.snd call.answered
    simp only [List.length_append, List.filterMap_cons, Phase.unsent, List.length_cons] at counted
    omega
  have answered : call.answered.length ≤ call.workers.length := by
    have counted := sound.accounted.answered.length_eq
    have fewer := List.length_filter_le (fun entry => entry.1.phase.answered) call.workers.zipIdx
    simp only [List.length_map, List.length_zipIdx] at counted fewer
    omega
  have workers : call.workers.length ≤ vertices.length := by
    rw [← sound.vertices]
    simp
  omega

/-- A goroutine that is not finished can move. -/
theorem Sound.worker_moves (sound : Sound p vertices call) {index : ℕ} {worker : Worker V ε}
    (here : call.workers[index]? = some worker) (unfinished : worker.phase.unfinished = true)
    (answers : VertexAnswers ε) :
    workerStep vertices.length index answers call ≠ none := by
  obtain ⟨vertex, phase⟩ := worker
  cases phase with
  | spawned => simp [workerStep, here]
  | calling => simp [workerStep, here]
  | sending err =>
    have room := sound.errs_lt here
    cases shut : call.closed <;> simp [workerStep, here, shut, room]
  | releasing =>
    obtain ⟨others, before, _⟩ := zipIdx_set_perm here 0
    have held := (sound.accounted.perm before).semaphore
    have positive : call.semaphore ≠ 0 := by
      simp only [List.countP_cons, Phase.holds, if_true] at held
      omega
    simp [workerStep, here, positive]
  | finishing =>
    have positive := (sound.before_wait here rfl).1
    simp [workerStep, here, Nat.ne_of_gt positive]
  | finished => cases unfinished

/-- A positive count has a worker behind it. -/
theorem exists_worker {property : Phase ε → Bool}
    (counted : 0 < call.workers.zipIdx.countP (fun entry => property entry.1.phase)) :
    ∃ (index : ℕ) (worker : Worker V ε),
      call.workers[index]? = some worker ∧ property worker.phase = true := by
  obtain ⟨⟨worker, index⟩, member, holds⟩ := List.countP_pos_iff.mp counted
  exact ⟨index, worker, List.mem_zipIdx_iff_getElem?.mp member, holds⟩

/-- A worker that holds the semaphore is not finished. -/
theorem Phase.unfinished_of_holds {phase : Phase ε} (holds : phase.holds = true) :
    phase.unfinished = true := by
  cases phase <;> simp_all

/-- Somebody can move as long as the call has not returned. -/
theorem Sound.moves (sound : Sound p vertices call)
    (running : ∀ result, call.caller ≠ .returned result) :
    ¬ Schedules.Stuck (step p vertices.length) call := by
  intro stuck
  have blocked : callerStep p call = none := by
    have turn := stuck .caller
    simpa only [step, sound.intact, Bool.false_eq_true, if_false] using turn
  have finished : ∀ (index : ℕ) (worker : Worker V ε), call.workers[index]? = some worker →
      worker.phase.unfinished = false := by
    intro index worker here
    by_contra unfinished
    have turn := stuck (.worker index default)
    simp only [step, sound.intact, Bool.false_eq_true, if_false] at turn
    exact sound.worker_moves here (by simpa using unfinished) default turn
  have idle : ∀ property : Phase ε → Bool,
      (∀ phase, property phase = true → phase.unfinished = true) →
      call.workers.zipIdx.countP (fun entry => property entry.1.phase) = 0 := by
    intro property active
    by_contra counted
    obtain ⟨index, worker, here, holds⟩ := exists_worker (Nat.pos_of_ne_zero counted)
    have unfinished := active worker.phase holds
    rw [finished index worker here] at unfinished
    cases unfinished
  cases stands : call.caller with
  | loop => cases listed : call.pending <;> simp [callerStep, stands, listed] at blocked
  | acquiring vertex =>
    have free : call.semaphore < p.maxWorkers := by
      have held := sound.accounted.semaphore
      have positive := p.positive
      rw [idle Phase.holds (fun _ => Phase.unfinished_of_holds), stands] at held
      simp only [Caller.acquired] at held
      omega
    simp [callerStep, stands, free] at blocked
  | spawning vertex => simp [callerStep, stands] at blocked
  | waiting =>
    have done : call.wg = 0 := by
      have counted := sound.accounted.wg
      rw [idle Phase.unfinished (fun _ => id), stands] at counted
      simpa using counted
    simp [callerStep, stands, done] at blocked
  | closing => simp [callerStep, stands] at blocked
  | draining =>
    have shut : call.closed = true := by
      rw [sound.closed, stands, Caller.afterClose]
    cases buffer : call.errs <;> simp [callerStep, stands, buffer, shut] at blocked
  | returned result => exact running result stands

/-- The operations that a goroutine has still to perform, at most. -/
@[simp] def Phase.effort : Phase ε → ℕ
  | .spawned => 5
  | .calling => 4
  | .sending _ => 3
  | .releasing => 2
  | .finishing => 1
  | .finished => 0

/-- What the caller has still to do, with a goroutine that it is about to start. -/
@[simp] def Caller.effort : Caller V ε → ℕ
  | .loop => 4
  | .acquiring _ => 11
  | .spawning _ => 10
  | .waiting => 3
  | .closing => 2
  | .draining => 1
  | .returned _ => 0

/-- The operations still to be performed, at most. -/
def Call.effort (call : Call V ε) : ℕ :=
  call.caller.effort + 8 * call.pending.length +
    (call.workers.map (fun worker => worker.phase.effort)).sum

/-- A step of the caller lowers the effort left. -/
theorem callerStep_lowers (taken : callerStep p call = some next) : next.effort < call.effort := by
  obtain ⟨caller, pending, workers, counter, slots, buffer, shut, panicked, log, results⟩ := call
  cases caller with
  | loop =>
    cases pending with
    | nil =>
      obtain rfl := Option.some.inj taken
      simp [Call.effort]
    | cons vertex rest =>
      obtain rfl := Option.some.inj taken
      simp only [Call.effort, Caller.effort, List.length_cons]
      omega
  | acquiring vertex =>
    simp only [callerStep, Option.ite_none_right_eq_some, Option.some.injEq] at taken
    obtain ⟨_, rfl⟩ := taken
    simp [Call.effort]
  | spawning vertex =>
    obtain rfl := Option.some.inj taken
    simp only [Call.effort, Caller.effort, List.map_append, List.sum_append, List.map_cons,
      List.map_nil, List.sum_cons, List.sum_nil, Phase.effort]
    omega
  | waiting =>
    simp only [callerStep, Option.ite_none_right_eq_some, Option.some.injEq] at taken
    obtain ⟨_, rfl⟩ := taken
    simp [Call.effort]
  | closing =>
    obtain rfl := Option.some.inj taken
    simp [Call.effort]
  | draining =>
    cases buffer with
    | nil =>
      simp only [callerStep, Option.ite_none_right_eq_some, Option.some.injEq] at taken
      obtain ⟨_, rfl⟩ := taken
      simp [Call.effort]
    | cons err rest =>
      obtain rfl := Option.some.inj taken
      simp [Call.effort]
  | returned result => cases taken

/-- Without a panic a goroutine moves on to a phase with less to do, and the caller stays where
it is. -/
theorem workerStep_moves {capacity index : ℕ} {answers : VertexAnswers ε}
    (taken : workerStep capacity index answers call = some next)
    (intact : next.panicked = false) :
    ∃ (worker : Worker V ε) (phase : Phase ε), call.workers[index]? = some worker ∧
      phase.effort < worker.phase.effort ∧
      next.workers = (call.move index worker phase).workers ∧
      next.caller = call.caller ∧ next.pending = call.pending := by
  cases here : call.workers[index]? with
  | none => simp [workerStep, here] at taken
  | some worker =>
    obtain ⟨vertex, phase⟩ := worker
    cases phase with
    | spawned =>
      simp only [workerStep, here, Option.some.injEq] at taken
      subst taken
      exact ⟨_, .calling, rfl, by simp, rfl, rfl, rfl⟩
    | calling =>
      simp only [workerStep, here, Option.some.injEq] at taken
      subst taken
      refine ⟨_, _, rfl, ?_, rfl, rfl, rfl⟩
      cases process answers <;> simp
    | sending err =>
      cases shut : call.closed with
      | true =>
        simp only [workerStep, here, shut, if_true, Option.some.injEq] at taken
        subst taken
        cases intact
      | false =>
        simp only [workerStep, here, shut, Bool.false_eq_true, if_false,
          Option.ite_none_right_eq_some, Option.some.injEq] at taken
        obtain ⟨_, rfl⟩ := taken
        exact ⟨_, .releasing, rfl, by simp, rfl, rfl, rfl⟩
    | releasing =>
      simp only [workerStep, here, Option.ite_none_left_eq_some, Option.some.injEq] at taken
      obtain ⟨_, rfl⟩ := taken
      exact ⟨_, .finishing, rfl, by simp, rfl, rfl, rfl⟩
    | finishing =>
      by_cases zero : call.wg = 0
      · simp only [workerStep, here, zero, if_true, Option.some.injEq] at taken
        subst taken
        cases intact
      · simp only [workerStep, here, zero, if_false, Option.some.injEq] at taken
        subst taken
        exact ⟨_, .finished, rfl, by simp, rfl, rfl, rfl⟩
    | finished => simp [workerStep, here] at taken

/-- Every step lowers the effort left. -/
theorem step_lowers {turn : Turn ε} (sound : Sound p vertices call)
    (taken : step p vertices.length call turn = some next) : next.effort < call.effort := by
  have intact := (step_sound sound taken).intact
  simp only [step, sound.intact, Bool.false_eq_true, if_false] at taken
  cases turn with
  | caller => exact callerStep_lowers taken
  | worker index answers =>
    obtain ⟨worker, phase, here, lower, workers, caller, pending⟩ := workerStep_moves taken intact
    have moved := sum_map_set (fun worker : Worker V ε => worker.phase.effort) here
      { worker with phase := phase }
    dsimp only at moved
    simp only [Call.effort, workers, caller, pending, Call.move_workers]
    omega

/-- What a call of `ProcessBatch` that has returned guarantees: `Process` has been called once for
each entry of the list, every call has returned, and the result is nil exactly when all their
results are, and otherwise one of their errors. -/
structure Completed (vertices : List V) (call : Call V ε) (result : Option ε) : Prop where
  called : call.called.Perm vertices.zipIdx
  answered : (call.answered.map Prod.fst).Perm vertices.zipIdx
  success : result = none ↔ ∀ entry ∈ call.answered, entry.2 = none
  failure : ∀ err, result = some err → ∃ entry ∈ call.answered, entry.2 = some err

/-- All goroutines have finished once the caller has waited. -/
theorem Sound.finished (sound : Sound p vertices call) (after : call.caller.afterWait = true) :
    ∀ entry ∈ call.workers.zipIdx, entry.1.phase = .finished := by
  have counted := sound.accounted.wg
  rw [sound.waited after] at counted
  have none : call.workers.zipIdx.countP (fun entry => entry.1.phase.unfinished) = 0 := by omega
  intro entry member
  have done := List.countP_eq_zero.mp none entry member
  cases phase : entry.1.phase with
  | finished => rfl
  | _ => simp [phase] at done

/-- When the caller has returned, every vertex has been processed. -/
theorem Sound.completed (sound : Sound p vertices call) {result : Option ε}
    (returned : call.caller = .returned result) : Completed vertices call result := by
  have finished := sound.finished (by rw [returned]; rfl)
  have listed : call.workers.map Worker.vertex = vertices := by
    have looped := sound.looped (by rw [returned]; rfl)
    simpa [returned, looped] using sound.vertices
  have entries : (call.workers.zipIdx.map (fun entry => (entry.1.vertex, entry.2))) =
      vertices.zipIdx := by
    rw [← listed, List.zipIdx_map]
    rfl
  have all : ∀ property : Phase ε → Bool, property .finished = true →
      call.workers.zipIdx.filter (fun entry => property entry.1.phase) = call.workers.zipIdx := by
    intro property holds
    apply List.filter_eq_self.mpr
    intro entry member
    rw [finished entry member, holds]
  have unsent : call.workers.zipIdx.filterMap (fun entry => entry.1.phase.unsent) = [] := by
    apply List.filterMap_eq_nil_iff.mpr
    intro entry member
    rw [finished entry member]
    rfl
  have errs := sound.accounted.errs
  rw [returned, unsent, List.append_nil] at errs
  constructor
  · rw [← entries, ← all Phase.begun rfl]
    exact sound.accounted.called
  · rw [← entries, ← all Phase.answered rfl]
    exact sound.accounted.answered
  · constructor
    · rintro rfl
      rw [sound.drained returned] at errs
      exact List.filterMap_eq_nil_iff.mp errs.symm.eq_nil
    · intro silent
      rw [List.filterMap_eq_nil_iff.mpr silent] at errs
      cases result with
      | none => rfl
      | some err => simp at errs
  · rintro err rfl
    have received : err ∈ call.answered.filterMap Prod.snd :=
      errs.subset (List.mem_append_left _ (by simp))
    exact List.mem_filterMap.mp received

/-- The number of calls of `Process` in flight. -/
def Call.inFlight (call : Call V ε) : ℕ := call.workers.countP (fun worker => worker.phase.inFlight)

/-- Every call in flight holds a slot. -/
theorem Sound.inFlight_le (sound : Sound p vertices call) : call.inFlight ≤ p.maxWorkers := by
  have holding : call.inFlight ≤ call.workers.countP (fun worker => worker.phase.holds) := by
    apply List.countP_mono_left
    intro worker _ calling
    cases phase : worker.phase <;> simp_all
  have entries : call.workers.countP (fun worker => worker.phase.holds) =
      call.workers.zipIdx.countP (fun entry => entry.1.phase.holds) := by
    conv_lhs => rw [← List.zipIdx_map_fst 0 call.workers, List.countP_map]
    rfl
  have held := sound.accounted.semaphore
  have bounded := sound.accounted.bounded
  omega

/-- Under every schedule `ProcessBatch` neither panics nor gets stuck before it returns, keeps at
most `maxWorkers` calls of `Process` in flight, performs at most eight operations for each vertex
and four more, and has completed when it returns. -/
theorem processBatch_completes (p : DefaultVertexProcessor) (vertices : List V)
    (schedule : List (Turn ε)) (call : Call V ε)
    (reached : Schedules.run (step p vertices.length) (start vertices) schedule = some call) :
    call.panicked = false ∧ call.inFlight ≤ p.maxWorkers ∧
      (Schedules.Stuck (step p vertices.length) call → ∃ result, call.caller = .returned result) ∧
      schedule.length ≤ 8 * vertices.length + 4 ∧
      ∀ result, call.caller = .returned result → Completed vertices call result := by
  have sound : Sound p vertices call :=
    Schedules.run_invariant _ (Sound p vertices) (fun _ _ _ before taken => step_sound before taken)
      (start_sound p vertices) reached
  have bounded := Schedules.run_bounded _ (Sound p vertices) Call.effort
    (fun _ _ _ before taken => step_sound before taken)
    (fun _ _ _ before taken => step_lowers before taken) (start_sound p vertices) reached
  refine ⟨sound.intact, sound.inFlight_le, ?_, ?_, fun result => sound.completed⟩
  · intro stuck
    by_contra running
    push Not at running
    exact sound.moves running stuck
  · simp only [start, Call.effort, Caller.effort, List.map_nil, List.sum_nil] at bounded
    omega

/-- Two vertices with one slot; `Verify` of the second one fails. -/
def oneAtATime : List (Turn ℕ) :=
  List.replicate 3 .caller ++ List.replicate 4 (.worker 0 ⟨none, .ok [none]⟩) ++
    List.replicate 3 .caller ++ List.replicate 5 (.worker 1 ⟨some 5, .ok []⟩) ++
    List.replicate 4 .caller

/-- The error of the only vertex that fails is returned. -/
theorem failed_vertex_reported :
    ∃ call : Call ℕ ℕ,
      Schedules.run (step (newDefaultVertexProcessor 1) [7, 8].length) (start [7, 8]) oneAtATime =
        some call ∧
      call.caller = .returned (some 5) ∧ Completed [7, 8] call (some 5) :=
  ⟨_, rfl, rfl,
    (processBatch_completes (newDefaultVertexProcessor 1) [7, 8] oneAtATime _ rfl).2.2.2.2
      (some 5) rfl⟩

end ProcessBatch

end AvalancheParallel.Consensus
