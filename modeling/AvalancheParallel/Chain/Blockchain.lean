import AvalancheParallel.Chain.Block
import AvalancheParallel.Ids
import AvalancheParallel.Foundation.Runs

/-!
# The blockchain

`Blockchain` of `pkg/blockchain/blockchain.go`. `AddTransaction`, `CreateBlock`
and `SubmitBlock` hold the lock from beginning to end and are one step each.
`ProcessPendingBlocks` gives the lock up between its phases, so a call is a pass
with several steps: the snapshot of the pending blocks, for each block of it
`Verify` and then `Accept` by a worker, and the collection of the results, which
holds the lock until all workers have delivered. Other calls, also of
`ProcessPendingBlocks`, may fall between these steps. The worker limit only
restricts which workers run at the same time and is left out, as is the logger.

The status fields of blocks and transactions are part of the state because
objects are shared between the maps, the passes and the callers. `passed` lists
the blocks whose `Verify` returned nil; no code reads it.
-/

namespace AvalancheParallel.Chain

open AvalancheParallel.RangeLoop AvalancheParallel.Choices AvalancheParallel.Ids

/-- The errors returned by the operations, with the values their texts contain. -/
inductive ChainError where
  | invalidTransaction (cause : TransactionError)
  | alreadyInPool (txID : ID)
  | parentNotFound (parentID : ID)
  | transactionNotFound (txID : ID)
deriving DecidableEq

/-- One running call of `ProcessPendingBlocks`: the snapshot, the blocks not verified
yet, the blocks verified but not accepted yet, and the results in order of delivery. -/
structure Pass where
  snapshot : List Block
  waiting : List Block
  verified : List Block
  results : List (ID × Option TransactionError)

/-- The fields of `Blockchain`, the statuses of the objects and the running passes. -/
structure Blockchain where
  genesisBlock : Block
  txPool : GoMap ID Transaction
  blocks : GoMap ID Block
  acceptedBlocks : GoMap ID Block
  pendingBlocks : GoMap ID Block
  latestBlocks : GoMap ID Block
  blocksByHeight : GoMap UInt64 (List Block)
  currentHeight : UInt64
  blockStatus : Block → Status
  txStatus : Transaction → Status
  nextRef : ℕ
  passes : GoMap ℕ Pass
  passed : List Block

/-- `NewBlockchain`: the accepted genesis block and empty maps otherwise. -/
def newBlockchain (sha256 : List UInt8 → ID) (now : ℤ) : Blockchain :=
  let genesis := newBlock sha256 0 now [] [] 0
  { genesisBlock := genesis
    txPool := ∅
    blocks := Finmap.singleton genesis.id genesis
    acceptedBlocks := Finmap.singleton genesis.id genesis
    pendingBlocks := ∅
    latestBlocks := Finmap.singleton genesis.id genesis
    blocksByHeight := Finmap.singleton 0 [genesis]
    currentHeight := 0
    blockStatus := Function.update (fun _ => .processing) genesis .accepted
    txStatus := fun _ => .processing
    nextRef := 1
    passes := ∅
    passed := [] }

/-- `AddTransaction`. -/
def addTransaction (tx : Transaction) (bc : Blockchain) : Blockchain × Option ChainError :=
  match tx.verify with
  | some cause => (bc, some (.invalidTransaction cause))
  | none =>
    if tx.id ∈ bc.txPool then (bc, some (.alreadyInPool tx.id))
    else ({ bc with txPool := bc.txPool.insert tx.id tx }, none)

/-- The height rule of `CreateBlock`: one above the current height, unless a parent is
at least that high; then the last such parent decides. Heights wrap around. -/
def nextHeight (bc : Blockchain) (parentIDs : List ID) : UInt64 :=
  parentIDs.foldl (fun height parentID =>
      match bc.blocks.lookup parentID with
      | none => height
      | some parent => if bc.currentHeight ≤ parent.height then parent.height + 1 else height)
    (bc.currentHeight + 1)

/-- The selection loop of `CreateBlock` over the pool in iteration order. The bound is
tested after a transaction has been taken. -/
def selectFrom (maxTxs : ℤ) : ℤ → List Transaction → List Transaction
  | _, [] => []
  | count, tx :: rest =>
    if maxTxs ≤ count + 1 then [tx] else tx :: selectFrom maxTxs (count + 1) rest

/-- The transactions `CreateBlock` takes from the pool. -/
def selectTxs (order : IterationOrder ID) (maxTxs : ℤ) (txPool : GoMap ID Transaction) :
    List Transaction :=
  selectFrom maxTxs 0 ((order.arrange txPool.keys).filterMap txPool.lookup)

/-- The largest capacity `make` allows for a slice of pointers: 2 ^ 48 bytes of eight
byte pointers on a 64-bit platform. -/
def maxSliceCap : ℤ := 2 ^ 45

/-- What a call of `CreateBlock` ends with. -/
inductive CreateResult where
  | created (block : Block)
  | failed (error : ChainError)
  | panicked
deriving DecidableEq

/-- The block `CreateBlock` builds once the parents have been found. -/
def builtBlock (sha256 : List UInt8 → ID) (order : IterationOrder ID) (parentIDs : List ID)
    (maxTxs now : ℤ) (bc : Blockchain) : Block :=
  newBlock sha256 bc.nextRef now parentIDs (selectTxs order maxTxs bc.txPool)
    (nextHeight bc parentIDs)

/-- The map updates of `CreateBlock`: the transactions leave the pool, and the block is
stored under its ID, in place of a block with that ID if there is one. -/
def storeBlock (block : Block) (bc : Blockchain) : Blockchain :=
  { bc with
    txPool := block.transactions.foldl (fun pool tx => pool.erase tx.id) bc.txPool
    blocks := bc.blocks.insert block.id block
    pendingBlocks := bc.pendingBlocks.insert block.id block
    blocksByHeight := bc.blocksByHeight.insert block.height
      ((bc.blocksByHeight.lookup block.height).getD [] ++ [block])
    blockStatus := Function.update bc.blockStatus block .processing
    nextRef := bc.nextRef + 1 }

/-- `CreateBlock`. A capacity out of range makes `make` panic before anything has
changed. `NewBlock` returns no error, so transactions are never returned to the pool. -/
def createBlock (sha256 : List UInt8 → ID) (order : IterationOrder ID) (parentIDs : List ID)
    (maxTxs now : ℤ) (bc : Blockchain) : Blockchain × CreateResult :=
  match parentIDs.find? (fun parentID => decide (parentID ∉ bc.blocks)) with
  | some parentID => (bc, .failed (.parentNotFound parentID))
  | none =>
    if maxTxs < 0 ∨ maxSliceCap < maxTxs then (bc, .panicked)
    else
      let block := builtBlock sha256 order parentIDs maxTxs now bc
      (storeBlock block bc, .created block)

/-- `SubmitBlock`, of any block. -/
def submitBlock (block : Block) (bc : Blockchain) : Blockchain :=
  let known := decide (block.id ∈ bc.blocks)
  { bc with
    blocks := if known then bc.blocks else bc.blocks.insert block.id block
    pendingBlocks := if known then bc.pendingBlocks else bc.pendingBlocks.insert block.id block
    latestBlocks := (block.parentIDs.foldl (fun latest parentID => latest.erase parentID)
      bc.latestBlocks).insert block.id block
    currentHeight := if bc.currentHeight < block.height then block.height else bc.currentHeight
    nextRef := max bc.nextRef (block.ref + 1) }

/-- The first phase of `ProcessPendingBlocks`. -/
def snapshotPending (order : IterationOrder ID) (pass : ℕ) (bc : Blockchain) : Blockchain :=
  if pass ∈ bc.passes then bc
  else
    let pending := (order.arrange bc.pendingBlocks.keys).filterMap bc.pendingBlocks.lookup
    { bc with passes := bc.passes.insert pass ⟨pending, pending, [], []⟩ }

/-- A worker calls `Verify` on the block at a position of the waiting list; a failure
is delivered as its result. -/
def verifyWorker (pass index : ℕ) (bc : Blockchain) : Blockchain :=
  match bc.passes.lookup pass with
  | none => bc
  | some running =>
    match running.waiting[index]? with
    | none => bc
    | some block =>
      match block.verify with
      | some error =>
        { bc with passes := bc.passes.insert pass { running with
            waiting := running.waiting.eraseIdx index
            results := running.results ++ [(block.id, some error)] } }
      | none =>
        { bc with
          passes := bc.passes.insert pass { running with
            waiting := running.waiting.eraseIdx index
            verified := running.verified ++ [block] }
          passed := block :: bc.passed }

/-- A worker calls `Accept` on a verified block and delivers its result: the block and
its transactions get the status `Accepted`. -/
def acceptWorker (pass index : ℕ) (bc : Blockchain) : Blockchain :=
  match bc.passes.lookup pass with
  | none => bc
  | some running =>
    match running.verified[index]? with
    | none => bc
    | some block =>
      { bc with
        passes := bc.passes.insert pass { running with
          verified := running.verified.eraseIdx index
          results := running.results ++ [(block.id, none)] }
        blockStatus := Function.update bc.blockStatus block .accepted
        txStatus := block.transactions.foldl (fun status tx => Function.update status tx .accepted)
          bc.txStatus }

/-- One result in the collection loop: the block stored under the ID now is marked as
accepted. A missing block is a nil dereference. -/
def collectResult (result : ID × Option TransactionError) (bc : Blockchain) :
    Blockchain × Option Unit :=
  match result.2 with
  | some _ => (bc, none)
  | none =>
    match bc.blocks.lookup result.1 with
    | none => (bc, some ())
    | some block =>
      ({ bc with
          acceptedBlocks := bc.acceptedBlocks.insert result.1 block
          pendingBlocks := bc.pendingBlocks.erase result.1 }, none)

/-- The last phase of `ProcessPendingBlocks`, once every worker has delivered. -/
def collectResults (pass : ℕ) (bc : Blockchain) : Blockchain :=
  match bc.passes.lookup pass with
  | none => bc
  | some running =>
    if running.waiting = [] ∧ running.verified = [] then
      let collected := (forRange (fun _ => collectResult) running.results bc).1
      { collected with passes := collected.passes.erase pass }
    else bc

/-- `GetTransaction`: the pool first, then the stored blocks in iteration order. -/
def getTransaction (order : IterationOrder ID) (txID : ID) (bc : Blockchain) :
    Except ChainError Transaction :=
  match bc.txPool.lookup txID with
  | some tx => .ok tx
  | none =>
    match ((order.arrange bc.blocks.keys).filterMap bc.blocks.lookup).findSome? (fun block =>
        block.transactions.find? (fun tx => decide (tx.id = txID))) with
    | some tx => .ok tx
    | none => .error (.transactionNotFound txID)

/-- The steps of a run. -/
inductive Action where
  | addTransaction (tx : Transaction)
  | createBlock (order : IterationOrder ID) (parentIDs : List ID) (maxTxs now : ℤ)
  | submitBlock (block : Block)
  | snapshot (order : IterationOrder ID) (pass : ℕ)
  | verify (pass index : ℕ)
  | accept (pass index : ℕ)
  | collect (pass : ℕ)

/-- The state after a step; returned errors do not change it. -/
def step (sha256 : List UInt8 → ID) (bc : Blockchain) : Action → Blockchain
  | .addTransaction tx => (addTransaction tx bc).1
  | .createBlock order parentIDs maxTxs now => (createBlock sha256 order parentIDs maxTxs now bc).1
  | .submitBlock block => submitBlock block bc
  | .snapshot order pass => snapshotPending order pass bc
  | .verify pass index => verifyWorker pass index bc
  | .accept pass index => acceptWorker pass index bc
  | .collect pass => collectResults pass bc

/-- The state after a run from a new blockchain. -/
abbrev runChain (sha256 : List UInt8 → ID) (now : ℤ) (actions : List Action) : Blockchain :=
  Runs.run (step sha256) (newBlockchain sha256 now) actions

end AvalancheParallel.Chain
