import AvalancheParallel.Chain.Ledger

/-!
# Requests to create a block

`handleCreateBlock` of `pkg/blockchain/node.go` calls `CreateBlock` and then
`SubmitBlock`. Each call holds the lock, but another request may be served between
the two. Two concurrent requests are modelled by a schedule that says whose
critical section comes next. The handlers refine handlers of the same shape that
work on ledgers, so that interleavings can be compared there.
-/

namespace AvalancheParallel.Chain

open AvalancheParallel.RangeLoop AvalancheParallel.Ids

/-- A decoded `/block/create` request, with the order in which its `CreateBlock` visits
the pool and the time of the call. -/
structure CreateRequest where
  parentIDs : List ID
  maxTxs : ℤ
  order : IterationOrder ID
  now : ℤ

/-- The same request with another order of iteration. -/
def CreateRequest.visiting (order : IterationOrder ID) (request : CreateRequest) : CreateRequest :=
  { request with order := order }

/-- How far a request has been served. -/
inductive Stage (β : Type) where
  | waiting
  | holding (block : β)
  | finished

def Stage.map {β γ : Type} (image : β → γ) : Stage β → Stage γ
  | .waiting => .waiting
  | .holding block => .holding (image block)
  | .finished => .finished

/-- The next critical section of `handleCreateBlock`. An error or a panic of `CreateBlock`
ends the request; `SubmitBlock` returns no error. -/
def handleCreateBlock (sha256 : List UInt8 → ID) (request : CreateRequest) (stage : Stage Block)
    (bc : Blockchain) : Blockchain × Stage Block :=
  match stage with
  | .waiting =>
    match createBlock sha256 request.order request.parentIDs request.maxTxs request.now bc with
    | (after, .created block) => (after, .holding block)
    | (after, _) => (after, .finished)
  | .holding block => (submitBlock block bc, .finished)
  | .finished => (bc, .finished)

/-- The two requests. -/
inductive Party where
  | first
  | second
deriving DecidableEq

/-- The state both requests work on, and how far each of them is. -/
structure Handlers (σ β : Type) where
  state : σ
  first : Stage β
  second : Stage β

/-- One of the requests gets the lock for its next critical section. -/
def takeTurn {σ β : Type} (serve : CreateRequest → Stage β → σ → σ × Stage β)
    (one two : CreateRequest) (handlers : Handlers σ β) : Party → Handlers σ β
  | .first =>
    let served := serve one handlers.first handlers.state
    ⟨served.1, served.2, handlers.second⟩
  | .second =>
    let served := serve two handlers.second handlers.state
    ⟨served.1, handlers.first, served.2⟩

/-- The state after the critical sections in the given order. -/
def execute {σ β : Type} (serve : CreateRequest → Stage β → σ → σ × Stage β)
    (one two : CreateRequest) (state : σ) (schedule : List Party) : σ :=
  (Runs.run (takeTurn serve one two) ⟨state, .waiting, .waiting⟩ schedule).state

/-- Each request takes two turns. -/
def IsSchedule (schedule : List Party) : Prop :=
  schedule.Perm [.first, .first, .second, .second]

instance (schedule : List Party) : Decidable (IsSchedule schedule) :=
  inferInstanceAs (Decidable (schedule.Perm _))

/-- The result is that of one of the sequential executions, for some orders of iteration. -/
def Serializable (sha256 : List UInt8 → ID) (one two : CreateRequest) (bc : Blockchain)
    (schedule : List Party) : Prop :=
  ∃ orderOne orderTwo : IterationOrder ID,
    ∃ sequence ∈ [[Party.first, .first, .second, .second], [.second, .second, .first, .first]],
      (execute (handleCreateBlock sha256) one two bc schedule).view =
        (execute (handleCreateBlock sha256) (one.visiting orderOne) (two.visiting orderTwo) bc
          sequence).view

namespace Ledger

/-- `CreateBlock` gets to build a block. -/
def Builds (request : CreateRequest) (ledger : Ledger) : Prop :=
  (∀ parentID ∈ request.parentIDs, (ledger.blocks parentID).isSome) ∧ 0 ≤ request.maxTxs ∧
    request.maxTxs ≤ maxSliceCap

instance (request : CreateRequest) (ledger : Ledger) : Decidable (ledger.Builds request) :=
  inferInstanceAs (Decidable (_ ∧ _ ∧ _))

/-- A content with the ID that `NewBlock` gives it. -/
def sealed (sha256 : List UInt8 → ID) (parentIDs : List ID) (height : UInt64)
    (transactions : List Transaction) : Content :=
  ⟨sha256 (headerBytes height parentIDs transactions.length), parentIDs, height, transactions⟩

/-- The content of the block that `CreateBlock` builds. -/
def create (sha256 : List UInt8 → ID) (request : CreateRequest) (ledger : Ledger) : Content :=
  sealed sha256 request.parentIDs (ledger.nextHeight request.parentIDs)
    (selectTxs request.order request.maxTxs ledger.txPool)

/-- The critical sections of a request on the ledger. -/
def serve (sha256 : List UInt8 → ID) (request : CreateRequest) (stage : Stage Content)
    (ledger : Ledger) : Ledger × Stage Content :=
  match stage with
  | .waiting =>
    if ledger.Builds request then
      (ledger.store (ledger.create sha256 request), .holding (ledger.create sha256 request))
    else (ledger, .finished)
  | .holding content => (ledger.submit content, .finished)
  | .finished => (ledger, .finished)

end Ledger

/-- Whether a request builds a block can be read off the view. -/
theorem builds_view (request : CreateRequest) (bc : Blockchain) :
    bc.view.Builds request ↔ Builds request.parentIDs request.maxTxs bc := by
  unfold Ledger.Builds Builds
  simp only [mem_blocks_view]

/-- The content that the view builds for a request is that of the block. -/
theorem create_view (sha256 : List UInt8 → ID) (request : CreateRequest) (bc : Blockchain) :
    bc.view.create sha256 request =
      (builtBlock sha256 request.order request.parentIDs request.maxTxs request.now
        bc).content := by
  unfold Ledger.create
  rw [nextHeight_view]
  rfl

/-- The handlers of the chain and of the ledger are at the same point, and a block that is
held is stored. -/
structure Refines (handlers : Handlers Blockchain Block) (image : Handlers Ledger Content) :
    Prop where
  state : image.state = handlers.state.view
  first : image.first = handlers.first.map Block.content
  second : image.second = handlers.second.map Block.content
  firstStored : ∀ block, handlers.first = .holding block → block.id ∈ handlers.state.blocks
  secondStored : ∀ block, handlers.second = .holding block → block.id ∈ handlers.state.blocks

/-- A critical section on the chain is one on its ledger; no ID gets lost. -/
theorem handleCreateBlock_view (sha256 : List UInt8 → ID) (request : CreateRequest)
    (stage : Stage Block) (bc : Blockchain)
    (stored : ∀ block, stage = .holding block → block.id ∈ bc.blocks) :
    bc.view.serve sha256 request (stage.map Block.content) =
        ((handleCreateBlock sha256 request stage bc).1.view,
          (handleCreateBlock sha256 request stage bc).2.map Block.content) ∧
      (∀ id ∈ bc.blocks, id ∈ (handleCreateBlock sha256 request stage bc).1.blocks) ∧
      ∀ block, (handleCreateBlock sha256 request stage bc).2 = .holding block →
        block.id ∈ (handleCreateBlock sha256 request stage bc).1.blocks := by
  cases stage with
  | waiting =>
    rcases createBlock_cases sha256 request.order request.parentIDs request.maxTxs request.now bc
      with ⟨stuck, same, nothing⟩ | ⟨builds, after⟩
    · have idle : handleCreateBlock sha256 request .waiting bc = (bc, .finished) := by
        cases outcome : createBlock sha256 request.order request.parentIDs request.maxTxs
            request.now bc with
        | mk state result =>
          rw [outcome] at same nothing
          simp only [handleCreateBlock, outcome]
          cases result with
          | created block => exact absurd rfl (nothing block)
          | failed error => rw [← same]
          | panicked => rw [← same]
      have blocked : ¬ bc.view.Builds request := mt (builds_view request bc).mp stuck
      rw [idle]
      refine ⟨?_, fun _ member => member, ?_⟩
      · simp only [Ledger.serve, Stage.map, blocked, if_false]
      · intro block held
        cases held
    · have made : handleCreateBlock sha256 request .waiting bc =
          (storeBlock (builtBlock sha256 request.order request.parentIDs request.maxTxs
            request.now bc) bc, .holding (builtBlock sha256 request.order request.parentIDs
            request.maxTxs request.now bc)) := by
        simp only [handleCreateBlock, after]
      have allowed : bc.view.Builds request := (builds_view request bc).mpr builds
      rw [made]
      refine ⟨?_, ?_, ?_⟩
      · simp only [Ledger.serve, Stage.map, allowed, if_true, storeBlock_view, create_view]
      · intro id member
        exact Finmap.mem_insert.mpr (Or.inr member)
      · intro block held
        cases held
        exact Finmap.mem_insert.mpr (Or.inl rfl)
  | holding block =>
    have known := stored block rfl
    have sameBlocks : (submitBlock block bc).blocks = bc.blocks := by simp [submitBlock, known]
    refine ⟨?_, ?_, ?_⟩
    · simp only [Ledger.serve, Stage.map, handleCreateBlock, submitBlock_view block bc known]
    · intro id member
      simp only [handleCreateBlock, sameBlocks]
      exact member
    · intro other held
      cases held
  | finished =>
    refine ⟨rfl, fun _ member => member, ?_⟩
    intro block held
    cases held

/-- A turn of a handler on the chain is the turn on the view. -/
theorem takeTurn_refines (sha256 : List UInt8 → ID) (one two : CreateRequest)
    (handlers : Handlers Blockchain Block) (image : Handlers Ledger Content) (party : Party)
    (refines : Refines handlers image) :
    Refines (takeTurn (handleCreateBlock sha256) one two handlers party)
      (takeTurn (Ledger.serve sha256) one two image party) := by
  obtain ⟨state, first, second, firstStored, secondStored⟩ := refines
  cases party with
  | first =>
    obtain ⟨served, kept, held⟩ :=
      handleCreateBlock_view sha256 one handlers.first handlers.state firstStored
    simp only [takeTurn, state, first, served]
    exact ⟨rfl, rfl, second, held, fun block holding => kept _ (secondStored block holding)⟩
  | second =>
    obtain ⟨served, kept, held⟩ :=
      handleCreateBlock_view sha256 two handlers.second handlers.state secondStored
    simp only [takeTurn, state, second, served]
    exact ⟨rfl, first, rfl, fun block holding => kept _ (firstStored block holding), held⟩

/-- Serving requests on the chain is serving them on its ledger. -/
theorem execute_view (sha256 : List UInt8 → ID) (one two : CreateRequest) (bc : Blockchain)
    (schedule : List Party) :
    (execute (handleCreateBlock sha256) one two bc schedule).view =
      execute (Ledger.serve sha256) one two bc.view schedule := by
  have start : Refines ⟨bc, .waiting, .waiting⟩ ⟨bc.view, .waiting, .waiting⟩ := by
    refine ⟨rfl, rfl, rfl, ?_, ?_⟩
    · intro block held
      cases held
    · intro block held
      cases held
  exact (Runs.run_simulates _ _ Refines (takeTurn_refines sha256 one two) _ _ schedule
    start).state.symm

end AvalancheParallel.Chain
