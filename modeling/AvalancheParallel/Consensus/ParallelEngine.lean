import Mathlib.Data.Finset.Union
import AvalancheParallel.Ids
import AvalancheParallel.Foundation.RangeLoop
import AvalancheParallel.Foundation.Runs

/-!
# The parallel consensus engine

`ParallelEngine` of `pkg/consensus/adapter.go`: registration of vertices and
their conflicts by `ProcessVertex`, the frontier of the vertex graph, and the
decision loop `DecideTxs`. Both operations hold the engine lock from beginning
to end, so a run is a sequence of calls; the body of the decision loop over one
frontier, a sweep, is a step of its own because the loop need not end.

Vertices and transactions are interface values. Their contents are fixed, but
each method call may succeed or fail on its own; the replies of a call and the
order of each map iteration are arguments of the step that makes the call. A
reply of `true` means that the method returned without an error.

The statuses of vertices and transactions live outside the engine. The model
records the `Accept` and `Reject` calls the engine makes, newest first, with
their replies. The worker limit, the logger and the running flag of
`RunConsensus` have no part in these operations.
-/

namespace AvalancheParallel.Consensus

open AvalancheParallel.RangeLoop AvalancheParallel.Choices

variable {ID : Type} [DecidableEq ID]

/-- A `snowstorm.Tx`: its ID and the list its `InputIDs` returns on success. -/
structure Tx (ID : Type) where
  id : ID
  inputIDs : List ID
deriving DecidableEq

/-- A `ParallelVertex`: its ID, the IDs of the vertices `Parents` returns, the
transactions `Txs` returns and its processing priority. -/
structure Vertex (ID : Type) where
  id : ID
  parentIDs : List ID
  txs : List (Tx ID)
  priority : UInt64
deriving DecidableEq

/-- A decision call made by the engine on a transaction or a vertex, with its reply. -/
inductive Call (ID : Type) where
  | acceptTx (tx : ID) (reply : Bool)
  | rejectTx (tx : ID) (reply : Bool)
  | acceptVertex (vertex : ID) (reply : Bool)
  | rejectVertex (vertex : ID) (reply : Bool)
deriving DecidableEq

/-- The method whose error an engine operation returns. `missingVertex` is the
nil dereference of a frontier ID without a vertex. -/
inductive Failure where
  | parents
  | rejectVertex
  | txs
  | inputIDs
  | acceptTx
  | rejectTx
  | acceptVertex
  | missingVertex
deriving DecidableEq, Repr

/-- The maps of `ParallelEngine`, and the decision calls made so far. -/
structure ParallelEngine (ID : Type) where
  vertices : GoMap ID (Vertex ID)
  edgeMap : GoMap ID (List ID)
  conflicts : GoMap ID (Finset ID)
  txsAccepted : Finset ID
  txsRejected : Finset ID
  calls : List (Call ID)

/-- The engine after an operation, and the error the operation returns if any. -/
abbrev Outcome (ID : Type) := ParallelEngine ID × Option Failure

/-- `NewParallelEngine`: all maps are empty. -/
def newParallelEngine : ParallelEngine ID where
  vertices := ∅
  edgeMap := ∅
  conflicts := ∅
  txsAccepted := ∅
  txsRejected := ∅
  calls := []

namespace ParallelEngine

/-- Note a decision call. -/
def record (call : Call ID) (e : ParallelEngine ID) : ParallelEngine ID :=
  { e with calls := call :: e.calls }

/-- The members of a conflict set; an absent entry has none. -/
def conflictSet (e : ParallelEngine ID) (inputID : ID) : Finset ID :=
  (e.conflicts.lookup inputID).getD ∅

/-- The parents recorded for a vertex; an absent entry has none. -/
def recordedParents (e : ParallelEngine ID) (vertexID : ID) : List ID :=
  (e.edgeMap.lookup vertexID).getD []

/-- The set `isParent` of `getFrontier`. -/
def isParent (e : ParallelEngine ID) : Finset ID :=
  e.edgeMap.keys.biUnion (fun vertexID => (e.recordedParents vertexID).toFinset)

/-- `getFrontier`: the vertices that are no recorded parent, in the order in
which the vertices map is visited. -/
def getFrontier (order : IterationOrder ID) (e : ParallelEngine ID) : List ID :=
  (order.arrange e.vertices.keys).filter (fun vertexID => decide (vertexID ∉ e.isParent))

end ParallelEngine

/-- Replies to the calls of one `ProcessVertex`. `inputIDs` is indexed by the
position of the transaction in the vertex. -/
structure ProcessReplies where
  parents : Bool
  verify : Bool
  reject : Bool
  txs : Bool
  inputIDs : ℕ → Bool

/-- Replies and iteration orders while `DecideTxs` handles one transaction. The
loops of the accept test and of the rejection are indexed by the position of the
input; the inner loops by the conflicting transaction, the vertex and the
position in that vertex. -/
structure TxReplies (ID : Type) where
  inputIDs : Bool
  accept : Bool
  testOrder : ℕ → IterationOrder ID
  rejectOrder : ℕ → IterationOrder ID
  vertexOrder : ℕ → ID → IterationOrder ID
  vtxTxs : ℕ → ID → ID → Bool
  reject : ℕ → ID → ID → ℕ → Bool

/-- Replies while `DecideTxs` handles one frontier vertex. -/
structure VertexReplies (ID : Type) where
  txs : Bool
  tx : ℕ → TxReplies ID
  accept : Bool

/-- The order in which the frontier is computed, and the replies at each of its
vertices. -/
structure SweepReplies (ID : Type) where
  order : IterationOrder ID
  vertex : ℕ → VertexReplies ID

/-- `e.conflicts[inputID].Add(txID)`, creating the set when it is absent. -/
def addConflict (txID : ID) (e : ParallelEngine ID) (inputID : ID) : ParallelEngine ID :=
  { e with conflicts := e.conflicts.insert inputID (insert txID (e.conflictSet inputID)) }

/-- One iteration of the registration loop of `ProcessVertex`: decided
transactions are skipped, and a failing `InputIDs` ends the call. -/
def registerTx (replies : ProcessReplies) (index : ℕ) (tx : Tx ID) (e : ParallelEngine ID) :
    Outcome ID :=
  if tx.id ∈ e.txsAccepted then (e, none)
  else if tx.id ∈ e.txsRejected then (e, none)
  else if !replies.inputIDs index then (e, some .inputIDs)
  else (tx.inputIDs.foldl (addConflict tx.id) e, none)

/-- `ProcessVertex`. The vertex enters the map before any of its methods is
called, and stays there on each of the four early returns. -/
def processVertex (replies : ProcessReplies) (vertex : Vertex ID) (e : ParallelEngine ID) :
    Outcome ID :=
  if vertex.id ∈ e.vertices then (e, none)
  else
    let stored := { e with vertices := e.vertices.insert vertex.id vertex }
    if !replies.parents then (stored, some .parents)
    else
      let linked := { stored with edgeMap := stored.edgeMap.insert vertex.id vertex.parentIDs }
      if !replies.verify then
        (linked.record (.rejectVertex vertex.id replies.reject),
          if replies.reject then none else some .rejectVertex)
      else if !replies.txs then (linked, some .txs)
      else forRange (registerTx replies) vertex.txs linked

/-- The accept test at one input: every other transaction registered under the
input is already rejected. -/
def inputClear (order : IterationOrder ID) (tx : Tx ID) (e : ParallelEngine ID) (inputID : ID) :
    Bool :=
  match e.conflicts.lookup inputID with
  | none => true
  | some conflicts => (order.arrange conflicts).all (fun conflictTxID =>
      decide (conflictTxID = tx.id) || decide (conflictTxID ∈ e.txsRejected))

/-- The accept test `canAccept` over all inputs of a transaction. -/
def canAccept (order : ℕ → IterationOrder ID) (tx : Tx ID) (e : ParallelEngine ID) : Bool :=
  tx.inputIDs.zipIdx.all (fun input => inputClear (order input.2) tx e input.1)

/-- Reject the occurrences of one conflicting transaction in one vertex. -/
def rejectIn (reply : ℕ → Bool) (conflictTxID : ID) (index : ℕ) (vtxTx : Tx ID)
    (e : ParallelEngine ID) : Outcome ID :=
  if vtxTx.id = conflictTxID then
    let called := e.record (.rejectTx conflictTxID (reply index))
    if reply index then
      ({ called with txsRejected := insert conflictTxID called.txsRejected }, none)
    else (called, some .rejectTx)
  else (e, none)

/-- Reject one conflicting transaction wherever it occurs. The error of `Txs` is
ignored here; a failing call contributes no transactions. -/
def rejectConflict (replies : TxReplies ID) (index : ℕ) (conflictTxID : ID)
    (e : ParallelEngine ID) : Outcome ID :=
  forRange (fun _ vertexID e =>
      match e.vertices.lookup vertexID with
      | none => (e, none)
      | some v => forRange (rejectIn (replies.reject index conflictTxID vertexID) conflictTxID)
          (if replies.vtxTxs index conflictTxID vertexID then v.txs else []) e)
    ((replies.vertexOrder index conflictTxID).arrange e.vertices.keys) e

/-- The rejection loop over all inputs of an accepted transaction. -/
def rejectConflicts (replies : TxReplies ID) (tx : Tx ID) (e : ParallelEngine ID) : Outcome ID :=
  forRange (fun index inputID e =>
      match e.conflicts.lookup inputID with
      | none => (e, none)
      | some conflicts => forRange (fun _ conflictTxID e =>
          if conflictTxID = tx.id then (e, none)
          else rejectConflict replies index conflictTxID e)
        ((replies.rejectOrder index).arrange conflicts) e)
    tx.inputIDs e

/-- The decision on one transaction of a frontier vertex. -/
def decideTx (replies : TxReplies ID) (tx : Tx ID) (e : ParallelEngine ID) : Outcome ID :=
  if tx.id ∈ e.txsAccepted then (e, none)
  else if tx.id ∈ e.txsRejected then (e, none)
  else if !replies.inputIDs then (e, some .inputIDs)
  else if canAccept replies.testOrder tx e then
    let called := e.record (.acceptTx tx.id replies.accept)
    if replies.accept then
      rejectConflicts replies tx { called with txsAccepted := insert tx.id called.txsAccepted }
    else (called, some .acceptTx)
  else (e, none)

/-- The test `allDecided` over the transactions of a vertex. -/
def allDecided (e : ParallelEngine ID) (txs : List (Tx ID)) : Bool :=
  txs.all (fun tx => decide (tx.id ∈ e.txsAccepted) || decide (tx.id ∈ e.txsRejected))

/-- Call `Accept` on a vertex whose transactions are all decided. -/
def acceptDecided (reply : Bool) (vertex : Vertex ID) (e : ParallelEngine ID) : Outcome ID :=
  if allDecided e vertex.txs then
    (e.record (.acceptVertex vertex.id reply), if reply then none else some .acceptVertex)
  else (e, none)

/-- The loop body of `DecideTxs` for one frontier vertex. -/
def decideVertex (replies : VertexReplies ID) (vertexID : ID) (e : ParallelEngine ID) :
    Outcome ID :=
  match e.vertices.lookup vertexID with
  | none => (e, some .missingVertex)
  | some vertex =>
    if !replies.txs then (e, some .txs)
    else
      match forRange (fun index => decideTx (replies.tx index)) vertex.txs e with
      | (decided, some failure) => (decided, some failure)
      | (decided, none) => acceptDecided replies.accept vertex decided

/-- One pass of the body of the `DecideTxs` loop over the current frontier. -/
def sweep (replies : SweepReplies ID) (e : ParallelEngine ID) : Outcome ID :=
  forRange (fun index => decideVertex (replies.vertex index)) (e.getFrontier replies.order) e

/-- `DecideTxs` with at most `fuel` sweeps, the replies of sweep `n` being
`replies n`. `none` means that the loop is still running. -/
def decideTxs (replies : ℕ → SweepReplies ID) : ℕ → ℕ → ParallelEngine ID → Option (Outcome ID)
  | fuel, index, e =>
    if e.getFrontier (replies index).order = [] then some (e, none)
    else
      match fuel with
      | 0 => none
      | fuel + 1 =>
        match sweep (replies index) e with
        | (next, some failure) => some (next, some failure)
        | (next, none) => decideTxs replies fuel (index + 1) next

/-- A step of a run: one `ProcessVertex` call or one sweep of `DecideTxs`. -/
inductive Action (ID : Type) where
  | processVertex (vertex : Vertex ID) (replies : ProcessReplies)
  | sweep (replies : SweepReplies ID)

/-- The state after a step; the returned error does not change it. -/
def step (e : ParallelEngine ID) : Action ID → ParallelEngine ID
  | .processVertex vertex replies => (processVertex replies vertex e).1
  | .sweep replies => (sweep replies e).1

/-- The state after a run from a new engine. -/
abbrev runEngine (actions : List (Action ID)) : ParallelEngine ID :=
  Runs.run step newParallelEngine actions

/-- The status of a vertex after the recorded calls: the latest successful call
decides it. -/
def vertexStatus (vertexID : ID) : List (Call ID) → Status
  | [] => .processing
  | .acceptVertex vertex true :: rest =>
    if vertex = vertexID then .accepted else vertexStatus vertexID rest
  | .rejectVertex vertex true :: rest =>
    if vertex = vertexID then .rejected else vertexStatus vertexID rest
  | _ :: rest => vertexStatus vertexID rest

/-- A `ProcessVertex` call in which no method fails. -/
def ProcessReplies.succeed : ProcessReplies where
  parents := true
  verify := true
  reject := true
  txs := true
  inputIDs := fun _ => true

/-- A sweep in which no method fails and every map is visited in one order. -/
def SweepReplies.succeed (order : IterationOrder ID) : SweepReplies ID where
  order := order
  vertex := fun _ =>
    { txs := true
      tx := fun _ =>
        { inputIDs := true
          accept := true
          testOrder := fun _ => order
          rejectOrder := fun _ => order
          vertexOrder := fun _ _ => order
          vtxTxs := fun _ _ _ => true
          reject := fun _ _ _ _ => true }
      accept := true }

end AvalancheParallel.Consensus
