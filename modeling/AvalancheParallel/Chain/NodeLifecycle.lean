import AvalancheParallel.Foundation.Runs
import Mathlib.Data.Int.Notation

/-!
# Starting and stopping a node

`Start` and `Stop` of `pkg/blockchain/node.go`. `Start` launches `RunConsensus` under a
context of its own and keeps the function that cancels it. `RunConsensus` ends only
when its context is cancelled. `Stop` shuts the server down and clears `running`, but
does not cancel the context, and nothing else does: a loop that was started runs for
ever, and a node that is started again runs one loop more.
-/

namespace AvalancheParallel.Chain

/-- The HTTP server of a node, with its port. -/
structure Server where
  port : ℤ
deriving DecidableEq

/-- A node with the contexts made so far. A context is named by its position and marked when it is
cancelled; `shutdownCtxCancel` cancels the named one. `loops` are the contexts of the `RunConsensus`
goroutines. -/
structure Node where
  apiPort : ℤ
  running : Bool
  server : Option Server
  shutdownCtxCancel : Option ℕ
  contexts : List Bool
  loops : List ℕ

/-- The errors of `Start` and `Stop`. -/
inductive NodeError where
  | alreadyRunning
  | notRunning
  | serverShutdown (err : String)
deriving DecidableEq

/-- The texts of the errors. -/
def NodeError.text : NodeError → String
  | .alreadyRunning => "node already running"
  | .notRunning => "node not running"
  | .serverShutdown err => "server shutdown error: " ++ err

/-- `NewNode`. -/
def newNode (apiPort : ℤ) : Node := ⟨apiPort, false, none, none, [], []⟩

namespace Node

/-- `Start`. -/
def start (n : Node) : Node × Option NodeError :=
  if n.running then (n, some .alreadyRunning)
  else
    let ctx := n.contexts.length
    ({ n with
      contexts := n.contexts ++ [false]
      loops := n.loops ++ [ctx]
      shutdownCtxCancel := some ctx
      server := some ⟨n.apiPort⟩
      running := true }, none)

/-- `Stop`, with the error of `Shutdown`. -/
def stop (shutdown : Option String) (n : Node) : Node × Option NodeError :=
  if n.running then
    match shutdown with
    | some err => (n, some (.serverShutdown err))
    | none => ({ n with running := false }, none)
  else (n, some .notRunning)

end Node

/-- A call on the node; the outcome of `Shutdown` belongs to the call. -/
inductive NodeCall where
  | start
  | stop (shutdown : Option String)
deriving DecidableEq

namespace Node

/-- The node after a call. -/
def call (n : Node) : NodeCall → Node
  | .start => n.start.1
  | .stop shutdown => (n.stop shutdown).1

/-- The `RunConsensus` loops whose context has not been cancelled. -/
def activeLoops (n : Node) : ℕ := n.loops.countP (fun ctx => n.contexts[ctx]? = some false)

/-- One loop while the node runs, and none otherwise. -/
def InStep (n : Node) : Prop := n.activeLoops = if n.running then 1 else 0

end Node

/-- No `Stop` that shuts the server down comes after a `Start`. -/
def NeverStopped : List NodeCall → Prop
  | [] => True
  | .start :: rest => .stop none ∉ rest
  | .stop _ :: rest => NeverStopped rest

namespace Node

/-- The contexts of the loops exist. -/
def Known (n : Node) : Prop := ∀ ctx ∈ n.loops, ctx < n.contexts.length

/-- Starting leaves the node in a known state. -/
theorem start_known {n : Node} (known : n.Known) : n.start.1.Known := by
  unfold start
  split
  · exact known
  · intro ctx member
    simp only [List.mem_append, List.mem_singleton, List.length_append, List.length_singleton]
      at member ⊢
    rcases member with old | rfl
    · exact Nat.lt_succ_of_lt (known ctx old)
    · exact Nat.lt_succ_self _

/-- A node that is not running gets one more loop from `Start`. -/
theorem start_activeLoops {n : Node} (known : n.Known) (stopped : n.running = false) :
    n.start.1.activeLoops = n.activeLoops + 1 := by
  have same : n.loops.countP (fun ctx => (n.contexts ++ [false])[ctx]? = some false) =
      n.activeLoops := by
    apply List.countP_congr
    intro ctx member
    rw [List.getElem?_append_left (known ctx member)]
  simp [start, stopped, activeLoops, List.countP_append, same]

/-- `Stop` leaves the loops alone. -/
theorem stop_activeLoops (shutdown : Option String) (n : Node) :
    (n.stop shutdown).1.activeLoops = n.activeLoops := by
  unfold stop
  split
  · split <;> rfl
  · rfl

/-- Every call leaves the node in a known state. -/
theorem call_known {n : Node} (known : n.Known) (call : NodeCall) : (n.call call).Known := by
  cases call with
  | start => exact start_known known
  | stop shutdown =>
    simp only [Node.call, stop]
    split
    · split <;> exact known
    · exact known

/-- Only a `Stop` of a running node whose server shuts down takes a node out of step. -/
theorem call_inStep {n : Node} (known : n.Known) (inStep : n.InStep) (call : NodeCall) :
    (n.call call).InStep ↔ (call = .stop none → n.running = false) := by
  cases state : n.running with
  | false =>
    refine iff_of_true ?_ (fun _ => rfl)
    cases call with
    | start =>
      have idle : n.activeLoops = 0 := by simpa [InStep, state] using inStep
      have one : n.start.1.activeLoops = 1 := by rw [start_activeLoops known state, idle]
      have started : n.start.1.running = true := by simp [start, state]
      simp [InStep, Node.call, one, started]
    | stop shutdown => simpa [Node.call, stop, state] using inStep
  | true =>
    have one : n.activeLoops = 1 := by simpa [InStep, state] using inStep
    cases call with
    | start => simpa [Node.call, start, state] using inStep
    | stop shutdown =>
      cases shutdown with
      | some err => simpa [Node.call, stop, state] using inStep
      | none =>
        have kept : (n.stop none).1.activeLoops = 1 := (stop_activeLoops none n).trans one
        have ended : (n.stop none).1.running = false := by simp [stop, state]
        simp [InStep, Node.call, kept, ended]

/-- The calls that leave a running node running. -/
theorem along_of_running {n : Node} (running : n.running = true) (calls : List NodeCall) :
    Runs.Along Node.call (fun n call => call = .stop none → n.running = false) n calls ↔
      .stop none ∉ calls := by
  induction calls with
  | nil => simp [Runs.Along]
  | cons first rest inductionHypothesis =>
    by_cases stops : first = .stop none
    · simp [Runs.Along, stops, running]
    · have same : n.call first = n := by
        cases first with
        | start => simp [Node.call, start, running]
        | stop shutdown =>
          cases shutdown with
          | none => exact absurd rfl stops
          | some err => simp [Node.call, stop, running]
      simp [Runs.Along, stops, same, inductionHypothesis, Ne.symm stops]

/-- No successful `Stop` meets a running node exactly when none comes after a `Start`. -/
theorem along_iff_neverStopped {n : Node} (stopped : n.running = false) (calls : List NodeCall) :
    Runs.Along Node.call (fun n call => call = .stop none → n.running = false) n calls ↔
      NeverStopped calls := by
  induction calls with
  | nil => simp [Runs.Along, NeverStopped]
  | cons first rest inductionHypothesis =>
    cases first with
    | start =>
      have started : (n.call .start).running = true := by simp [Node.call, start, stopped]
      rw [Runs.Along, along_of_running started, NeverStopped]
      simp
    | stop shutdown =>
      have same : n.call (.stop shutdown) = n := by simp [Node.call, stop, stopped]
      rw [Runs.Along, same, inductionHypothesis, NeverStopped]
      simp [stopped]

end Node

/-- The node runs as many loops as it should after every call exactly when it is never stopped
after it has been started. -/
theorem consensus_in_step_iff (apiPort : ℤ) (calls : List NodeCall) :
    Runs.Always Node.call Node.InStep (newNode apiPort) calls ↔ NeverStopped calls := by
  have initial : (newNode apiPort).Known := by simp [Node.Known, newNode]
  have holds : (newNode apiPort).InStep := by simp [Node.InStep, Node.activeLoops, newNode]
  rw [Runs.always_iff_along Node.call Node.Known
    (fun _ call known => Node.call_known known call)
    (fun _ call known inStep => Node.call_inStep known inStep call) calls initial holds]
  exact Node.along_iff_neverStopped rfl calls

/-- The loop of a node that was started and stopped is not cancelled. -/
theorem stopped_node_runs_consensus :
    ¬ Runs.Always Node.call Node.InStep (newNode 8545) [.start, .stop none] := by
  simp [Runs.Always, Node.InStep, Node.activeLoops, Node.call, Node.start, Node.stop, newNode]

end AvalancheParallel.Chain
