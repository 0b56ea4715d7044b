import AvalancheParallel.Chain.Blockchain

/-!
# What the blockchain operations can do

One lemma for each operation says what it may change. The phases of
`ProcessPendingBlocks` leave the pool and the stored blocks alone, `SubmitBlock`
stores a block only under a new ID, and `CreateBlock` either does nothing or
stores the block it built. A stored block is replaced only by a block with the
same header, unless two different headers have the same hash.
-/

namespace AvalancheParallel.Chain

open AvalancheParallel.RangeLoop AvalancheParallel.Ids

/-- The parts of the state that the phases of `ProcessPendingBlocks` do not change. -/
structure SameStore (bc after : Blockchain) : Prop where
  genesisBlock : after.genesisBlock = bc.genesisBlock
  txPool : after.txPool = bc.txPool
  blocks : after.blocks = bc.blocks
  nextRef : after.nextRef = bc.nextRef

/-- Nothing changes without a step. -/
theorem SameStore.refl (bc : Blockchain) : SameStore bc bc := ⟨rfl, rfl, rfl, rfl⟩

/-- Two steps that leave the store, one after the other. -/
theorem SameStore.trans {bc middle after : Blockchain} (first : SameStore bc middle)
    (second : SameStore middle after) : SameStore bc after :=
  ⟨second.genesisBlock.trans first.genesisBlock, second.txPool.trans first.txPool,
    second.blocks.trans first.blocks, second.nextRef.trans first.nextRef⟩

/-- Only the decisions and the passes may differ: what `CreateBlock` and `SubmitBlock`
maintain is as before. -/
structure SameChain (bc after : Blockchain) : Prop extends SameStore bc after where
  latestBlocks : after.latestBlocks = bc.latestBlocks
  blocksByHeight : after.blocksByHeight = bc.blocksByHeight
  currentHeight : after.currentHeight = bc.currentHeight

/-- Nothing changes without a step. -/
theorem SameChain.refl (bc : Blockchain) : SameChain bc bc := ⟨SameStore.refl bc, rfl, rfl, rfl⟩

/-- Two steps that leave the chain, one after the other. -/
theorem SameChain.trans {bc middle after : Blockchain} (first : SameChain bc middle)
    (second : SameChain middle after) : SameChain bc after :=
  ⟨first.toSameStore.trans second.toSameStore, second.latestBlocks.trans first.latestBlocks,
    second.blocksByHeight.trans first.blocksByHeight,
    second.currentHeight.trans first.currentHeight⟩

/-- Starting a pass leaves the chain. -/
theorem snapshotPending_same (order : IterationOrder ID) (pass : ℕ) (bc : Blockchain) :
    SameChain bc (snapshotPending order pass bc) := by
  unfold snapshotPending
  split
  · exact SameChain.refl bc
  · exact ⟨⟨rfl, rfl, rfl, rfl⟩, rfl, rfl, rfl⟩

/-- What a worker does when it verifies a block, with the state of its pass before. -/
theorem verifyWorker_cases (pass index : ℕ) (bc : Blockchain) :
    verifyWorker pass index bc = bc ∨
    ∃ running block, bc.passes.lookup pass = some running ∧ running.waiting[index]? = some block ∧
      ((∃ error, block.verify = some error ∧ verifyWorker pass index bc =
          { bc with passes := bc.passes.insert pass { running with
            waiting := running.waiting.eraseIdx index
            results := running.results ++ [(block.id, some error)] } }) ∨
       (block.verify = none ∧ verifyWorker pass index bc =
          { bc with
            passes := bc.passes.insert pass { running with
              waiting := running.waiting.eraseIdx index
              verified := running.verified ++ [block] }
            passed := block :: bc.passed })) := by
  unfold verifyWorker
  cases found : bc.passes.lookup pass with
  | none => exact Or.inl rfl
  | some running =>
    cases here : running.waiting[index]? with
    | none => exact Or.inl (by simp only [here])
    | some block =>
      refine Or.inr ⟨running, block, rfl, here, ?_⟩
      simp only [here]
      cases verdict : block.verify with
      | some error => exact Or.inl ⟨error, rfl, rfl⟩
      | none => exact Or.inr ⟨rfl, rfl⟩

/-- What a worker does when it accepts a block. -/
theorem acceptWorker_cases (pass index : ℕ) (bc : Blockchain) :
    acceptWorker pass index bc = bc ∨
    ∃ running block, bc.passes.lookup pass = some running ∧
      running.verified[index]? = some block ∧
      acceptWorker pass index bc =
        { bc with
          passes := bc.passes.insert pass { running with
            verified := running.verified.eraseIdx index
            results := running.results ++ [(block.id, none)] }
          blockStatus := Function.update bc.blockStatus block .accepted
          txStatus := block.transactions.foldl
            (fun status tx => Function.update status tx .accepted) bc.txStatus } := by
  unfold acceptWorker
  cases found : bc.passes.lookup pass with
  | none => exact Or.inl rfl
  | some running =>
    cases here : running.verified[index]? with
    | none => exact Or.inl (by simp only [here])
    | some block =>
      refine Or.inr ⟨running, block, rfl, here, ?_⟩
      simp only [here]

/-- A worker that verifies its block leaves the chain. -/
theorem verifyWorker_same (pass index : ℕ) (bc : Blockchain) :
    SameChain bc (verifyWorker pass index bc) := by
  rcases verifyWorker_cases pass index bc with
    idle | ⟨_, _, _, _, ⟨_, _, after⟩ | ⟨_, after⟩⟩
  · rw [idle]
    exact SameChain.refl bc
  · rw [after]
    exact ⟨⟨rfl, rfl, rfl, rfl⟩, rfl, rfl, rfl⟩
  · rw [after]
    exact ⟨⟨rfl, rfl, rfl, rfl⟩, rfl, rfl, rfl⟩

/-- A worker that accepts its block leaves the chain. -/
theorem acceptWorker_same (pass index : ℕ) (bc : Blockchain) :
    SameChain bc (acceptWorker pass index bc) := by
  rcases acceptWorker_cases pass index bc with idle | ⟨_, _, _, _, after⟩
  · rw [idle]
    exact SameChain.refl bc
  · rw [after]
    exact ⟨⟨rfl, rfl, rfl, rfl⟩, rfl, rfl, rfl⟩

/-- Collecting one result leaves the chain. -/
theorem collectResult_same (result : ID × Option TransactionError) (bc : Blockchain) :
    SameChain bc (collectResult result bc).1 := by
  unfold collectResult
  split
  · exact SameChain.refl bc
  · split
    · exact SameChain.refl bc
    · exact ⟨⟨rfl, rfl, rfl, rfl⟩, rfl, rfl, rfl⟩

/-- The loop over the results leaves the chain. -/
theorem collectLoop_same (results : List (ID × Option TransactionError)) (bc : Blockchain) :
    SameChain bc (forRange (fun _ => collectResult) results bc).1 :=
  forRange_preserves (SameChain bc)
    (fun _ result _ state before => before.trans (collectResult_same result state))
    (SameChain.refl bc)

/-- Collecting the results of a pass leaves the chain. -/
theorem collectResults_same (pass : ℕ) (bc : Blockchain) :
    SameChain bc (collectResults pass bc) := by
  unfold collectResults
  split
  · exact SameChain.refl bc
  · split
    · rename_i running _ _
      have loop := collectLoop_same running.results bc
      exact ⟨⟨loop.genesisBlock, loop.txPool, loop.blocks, loop.nextRef⟩, loop.latestBlocks,
        loop.blocksByHeight, loop.currentHeight⟩
    · exact SameChain.refl bc

/-- The action is a phase of `ProcessPendingBlocks`. -/
def Action.IsPhase : Action → Prop
  | .snapshot _ _ | .verify _ _ | .accept _ _ | .collect _ => True
  | .addTransaction _ | .createBlock _ _ _ _ | .submitBlock _ => False

/-- Every phase of a pass leaves the chain. -/
theorem phase_same (sha256 : List UInt8 → ID) (bc : Blockchain) (action : Action)
    (phase : action.IsPhase) : SameChain bc (step sha256 bc action) := by
  cases action with
  | addTransaction tx => exact phase.elim
  | createBlock order parentIDs maxTxs now => exact phase.elim
  | submitBlock block => exact phase.elim
  | snapshot order pass => exact snapshotPending_same order pass bc
  | verify pass index => exact verifyWorker_same pass index bc
  | accept pass index => exact acceptWorker_same pass index bc
  | collect pass => exact collectResults_same pass bc

/-- `AddTransaction` changes nothing or puts a valid new transaction into the pool. -/
theorem addTransaction_cases (tx : Transaction) (bc : Blockchain) :
    ((addTransaction tx bc).2 ≠ none ∧ (addTransaction tx bc).1 = bc) ∨
    ((addTransaction tx bc).2 = none ∧ tx.verify = none ∧ tx.id ∉ bc.txPool ∧
      (addTransaction tx bc).1 = { bc with txPool := bc.txPool.insert tx.id tx }) := by
  unfold addTransaction
  cases verified : tx.verify with
  | some cause => exact Or.inl ⟨by simp, rfl⟩
  | none =>
    by_cases known : tx.id ∈ bc.txPool
    · exact Or.inl ⟨by simp [known], by simp [known]⟩
    · exact Or.inr ⟨by simp [known], rfl, known, by simp [known]⟩

/-- `CreateBlock` gets to build its block: the parents exist and the capacity is in range. -/
def Builds (parentIDs : List ID) (maxTxs : ℤ) (bc : Blockchain) : Prop :=
  (∀ parentID ∈ parentIDs, parentID ∈ bc.blocks) ∧ 0 ≤ maxTxs ∧ maxTxs ≤ maxSliceCap

/-- `CreateBlock` stores the block it built, or changes nothing when it does not get to
build one. -/
theorem createBlock_cases (sha256 : List UInt8 → ID) (order : IterationOrder ID)
    (parentIDs : List ID) (maxTxs now : ℤ) (bc : Blockchain) :
    (¬ Builds parentIDs maxTxs bc ∧ (createBlock sha256 order parentIDs maxTxs now bc).1 = bc ∧
      ∀ block, (createBlock sha256 order parentIDs maxTxs now bc).2 ≠ .created block) ∨
    (Builds parentIDs maxTxs bc ∧ createBlock sha256 order parentIDs maxTxs now bc =
      (storeBlock (builtBlock sha256 order parentIDs maxTxs now bc) bc,
        .created (builtBlock sha256 order parentIDs maxTxs now bc))) := by
  unfold createBlock
  cases missing : parentIDs.find? (fun parentID => decide (parentID ∉ bc.blocks)) with
  | some parentID =>
    have unknown : parentID ∉ bc.blocks := by simpa using List.find?_some missing
    refine Or.inl ⟨?_, rfl, by simp⟩
    intro builds
    exact unknown (builds.1 parentID (List.mem_of_find?_eq_some missing))
  | none =>
    by_cases outOfRange : maxTxs < 0 ∨ maxSliceCap < maxTxs
    · refine Or.inl ⟨?_, by simp [outOfRange], by simp [outOfRange]⟩
      rintro ⟨_, atLeast, atMost⟩
      omega
    · refine Or.inr ⟨⟨?_, by omega, by omega⟩, by simp [outOfRange]⟩
      intro parentID member
      simpa using List.find?_eq_none.mp missing parentID member

/-- The block has the header of the block `CreateBlock` is about to build: its height,
its parents and, modulo `2 ^ 64`, its number of transactions. -/
def Block.Twin (block : Block) (order : IterationOrder ID) (parentIDs : List ID) (maxTxs : ℤ)
    (bc : Blockchain) : Prop :=
  block.height = nextHeight bc parentIDs ∧ block.parentIDs = parentIDs ∧
    UInt64.ofNat block.transactions.length =
      UInt64.ofNat (selectTxs order maxTxs bc.txPool).length

/-- The hash of the block does not collide with that of the block about to be built. -/
def Block.NoCollision (sha256 : List UInt8 → ID) (block : Block) (order : IterationOrder ID)
    (parentIDs : List ID) (maxTxs now : ℤ) (bc : Blockchain) : Prop :=
  sha256 block.generateBytes =
      sha256 (builtBlock sha256 order parentIDs maxTxs now bc).generateBytes →
    block.generateBytes = (builtBlock sha256 order parentIDs maxTxs now bc).generateBytes

instance (block : Block) (order : IterationOrder ID) (parentIDs : List ID) (maxTxs : ℤ)
    (bc : Blockchain) : Decidable (block.Twin order parentIDs maxTxs bc) :=
  inferInstanceAs (Decidable (_ ∧ _ ∧ _))

instance (sha256 : List UInt8 → ID) (block : Block) (order : IterationOrder ID)
    (parentIDs : List ID) (maxTxs now : ℤ) (bc : Blockchain) :
    Decidable (block.NoCollision sha256 order parentIDs maxTxs now bc) :=
  inferInstanceAs (Decidable (_ → _))

/-- Without collisions, a genuine block with the ID of the new block is its twin. -/
theorem Block.NoCollision.twin {sha256 : List UInt8 → ID} {block : Block}
    {order : IterationOrder ID} {parentIDs : List ID} {maxTxs now : ℤ} {bc : Blockchain}
    (noCollision : block.NoCollision sha256 order parentIDs maxTxs now bc)
    (genuine : block.Genuine sha256)
    (sameID : block.id = (builtBlock sha256 order parentIDs maxTxs now bc).id) :
    block.Twin order parentIDs maxTxs bc := by
  have built : (builtBlock sha256 order parentIDs maxTxs now bc).Genuine sha256 :=
    newBlock_genuine sha256 bc.nextRef now parentIDs (selectTxs order maxTxs bc.txPool)
      (nextHeight bc parentIDs)
  have sameBytes := noCollision (by rw [← genuine, ← built, sameID])
  exact (headerBytes_eq_iff _ _ _ _ _ _).mp sameBytes

/-- The pool after `CreateBlock` keeps exactly the transactions not taken. -/
theorem lookup_foldl_erase (taken : List Transaction) (pool : GoMap ID Transaction) (txID : ID) :
    (taken.foldl (fun pool tx => pool.erase tx.id) pool).lookup txID =
      if ∃ tx ∈ taken, tx.id = txID then none else pool.lookup txID := by
  induction taken generalizing pool with
  | nil => simp
  | cons tx rest inductionHypothesis =>
    rw [List.foldl_cons, inductionHypothesis]
    by_cases same : tx.id = txID
    · subst same
      simp
    · have untouched : (pool.erase tx.id).lookup txID = pool.lookup txID :=
        Finmap.lookup_erase_ne (fun equal => same equal.symm)
      simp [same, untouched]

/-- What is left of a pool after transactions were taken. -/
theorem lookup_foldl_erase_some (taken : List Transaction) (pool : GoMap ID Transaction)
    (txID : ID) (tx : Transaction) :
    (taken.foldl (fun pool tx => pool.erase tx.id) pool).lookup txID = some tx ↔
      pool.lookup txID = some tx ∧ txID ∉ taken.map Transaction.id := by
  rw [lookup_foldl_erase, List.mem_map]
  split
  · rename_i inside
    simp [inside]
  · rename_i outside
    simp [outside]

/-- `SubmitBlock` keeps what is stored and adds its block only under a new ID. -/
theorem submitBlock_lookup (block : Block) (bc : Blockchain) (id : ID) :
    (submitBlock block bc).blocks.lookup id =
      if id = block.id ∧ block.id ∉ bc.blocks then some block else bc.blocks.lookup id := by
  by_cases known : block.id ∈ bc.blocks
  · simp [submitBlock, known]
  · by_cases same : id = block.id
    · subst same
      simp [submitBlock, known]
    · simp [submitBlock, known, same, Finmap.lookup_insert_of_ne _ same]

/-- `SubmitBlock` deletes the parents from the latest blocks and adds its block. -/
theorem submitBlock_latest (block : Block) (bc : Blockchain) (id : ID) :
    (submitBlock block bc).latestBlocks.lookup id =
      if id = block.id then some block
      else if id ∈ block.parentIDs then none else bc.latestBlocks.lookup id := by
  have erased : ∀ (parentIDs : List ID) (latest : GoMap ID Block),
      (parentIDs.foldl (fun latest parentID => latest.erase parentID) latest).lookup id =
        if id ∈ parentIDs then none else latest.lookup id := by
    intro parentIDs
    induction parentIDs with
    | nil => simp
    | cons parentID rest inductionHypothesis =>
      intro latest
      rw [List.foldl_cons, inductionHypothesis]
      by_cases same : id = parentID
      · subst same
        simp
      · simp [same, Finmap.lookup_erase_ne same]
  by_cases own : id = block.id
  · subst own
    simp [submitBlock]
  · simp only [submitBlock, own, if_false, Finmap.lookup_insert_of_ne _ own, erased]

/-- Stored blocks are found under their own IDs, and they are older than the next object. -/
def BlocksKeyed (bc : Blockchain) : Prop :=
  ∀ id block, bc.blocks.lookup id = some block → block.id = id ∧ block.ref < bc.nextRef

/-- Pending blocks are stored. -/
def PendingStored (bc : Blockchain) : Prop :=
  ∀ id block, bc.pendingBlocks.lookup id = some block → bc.blocks.lookup id = some block

/-- Pooled transactions are valid and found under their own IDs. -/
def PoolKeyed (bc : Blockchain) : Prop :=
  ∀ id tx, bc.txPool.lookup id = some tx → tx.id = id ∧ tx.verify = none

/-- A stored block goes under its ID, with a reference that is new. -/
theorem storeBlock_blocksKeyed {block : Block} {bc : Blockchain} (fresh : block.ref = bc.nextRef)
    (keyed : BlocksKeyed bc) : BlocksKeyed (storeBlock block bc) := by
  intro id other found
  simp only [storeBlock] at found ⊢
  obtain ⟨rfl, rfl⟩ | ⟨_, earlier⟩ := lookup_insert_cases found
  · exact ⟨rfl, by omega⟩
  · have older := keyed id other earlier
    exact ⟨older.1, by omega⟩

/-- A block that becomes pending is stored. -/
theorem storeBlock_pendingStored (block : Block) {bc : Blockchain} (stored : PendingStored bc) :
    PendingStored (storeBlock block bc) := by
  intro id other found
  simp only [storeBlock] at found ⊢
  obtain ⟨rfl, rfl⟩ | ⟨different, earlier⟩ := lookup_insert_cases found
  · exact Finmap.lookup_insert bc.blocks
  · rw [Finmap.lookup_insert_of_ne bc.blocks different]
    exact stored id other earlier

/-- A submitted block goes under its ID. -/
theorem submitBlock_blocksKeyed (block : Block) {bc : Blockchain} (keyed : BlocksKeyed bc) :
    BlocksKeyed (submitBlock block bc) := by
  intro id other found
  rw [submitBlock_lookup] at found
  split at found
  · rename_i new
    rw [← Option.some.inj found]
    exact ⟨new.1.symm, lt_of_lt_of_le (Nat.lt_succ_self block.ref) (le_max_right _ _)⟩
  · have older := keyed id other found
    exact ⟨older.1, lt_of_lt_of_le older.2 (le_max_left _ _)⟩

/-- Submitting a block removes none that is pending. -/
theorem submitBlock_pendingStored (block : Block) {bc : Blockchain} (stored : PendingStored bc) :
    PendingStored (submitBlock block bc) := by
  intro id other found
  by_cases known : block.id ∈ bc.blocks
  · simp only [submitBlock, known, decide_true, if_true] at found ⊢
    exact stored id other found
  · simp only [submitBlock, known, decide_false, Bool.false_eq_true, if_false] at found ⊢
    obtain ⟨rfl, rfl⟩ | ⟨different, earlier⟩ := lookup_insert_cases found
    · exact Finmap.lookup_insert bc.blocks
    · rw [Finmap.lookup_insert_of_ne bc.blocks different]
      exact stored id other earlier

/-- Collecting a result only takes blocks out of the pending ones. -/
theorem collectResult_pendingStored (result : ID × Option TransactionError) {bc : Blockchain}
    (stored : PendingStored bc) : PendingStored (collectResult result bc).1 := by
  unfold collectResult
  split
  · exact stored
  · split
    · exact stored
    · intro id other found
      exact stored id other (lookup_erase_some found).2

/-- The maps of a reachable state agree with the objects in them. -/
structure Keyed (bc : Blockchain) : Prop where
  blocks : BlocksKeyed bc
  pending : PendingStored bc
  pool : PoolKeyed bc

/-- The keys stay right when the store is the same. -/
theorem SameStore.keyed {bc after : Blockchain} (same : SameStore bc after) (keyed : Keyed bc)
    (pending : PendingStored after) : Keyed after where
  blocks := by
    unfold BlocksKeyed
    rw [same.blocks, same.nextRef]
    exact keyed.blocks
  pending := pending
  pool := by
    unfold PoolKeyed
    rw [same.txPool]
    exact keyed.pool

/-- Storing a block only takes transactions out of the pool. -/
theorem storeBlock_poolKeyed (block : Block) {bc : Blockchain} (keyed : PoolKeyed bc) :
    PoolKeyed (storeBlock block bc) := by
  intro id tx found
  exact keyed id tx ((lookup_foldl_erase_some _ _ _ _).mp found).1

/-- An added transaction goes under its ID. -/
theorem addTransaction_keyed (tx : Transaction) (bc : Blockchain) (keyed : Keyed bc) :
    Keyed (addTransaction tx bc).1 := by
  rcases addTransaction_cases tx bc with ⟨_, idle⟩ | ⟨_, valid, _, after⟩
  · rw [idle]
    exact keyed
  · rw [after]
    refine ⟨keyed.blocks, keyed.pending, ?_⟩
    intro id other found
    obtain ⟨rfl, rfl⟩ | ⟨_, earlier⟩ := lookup_insert_cases found
    · exact ⟨rfl, valid⟩
    · exact keyed.pool id other earlier

/-- Creating a block keeps the keys right. -/
theorem createBlock_keyed (sha256 : List UInt8 → ID) (order : IterationOrder ID)
    (parentIDs : List ID) (maxTxs now : ℤ) (bc : Blockchain) (keyed : Keyed bc) :
    Keyed (createBlock sha256 order parentIDs maxTxs now bc).1 := by
  rcases createBlock_cases sha256 order parentIDs maxTxs now bc with ⟨_, same, _⟩ | ⟨_, after⟩
  · rw [same]
    exact keyed
  · rw [after]
    exact ⟨storeBlock_blocksKeyed rfl keyed.blocks, storeBlock_pendingStored _ keyed.pending,
      storeBlock_poolKeyed _ keyed.pool⟩

/-- Collecting results only takes blocks out of the pending ones. -/
theorem collectResults_pendingStored (pass : ℕ) {bc : Blockchain} (stored : PendingStored bc) :
    PendingStored (collectResults pass bc) := by
  unfold collectResults
  split
  · exact stored
  · split
    · exact forRange_preserves PendingStored
        (fun _ result _ _ before => collectResult_pendingStored result before) stored
    · exact stored

/-- Every step keeps the maps in order. -/
theorem step_keyed (sha256 : List UInt8 → ID) (bc : Blockchain) (action : Action)
    (keyed : Keyed bc) : Keyed (step sha256 bc action) := by
  cases action with
  | addTransaction tx => exact addTransaction_keyed tx bc keyed
  | createBlock order parentIDs maxTxs now =>
    exact createBlock_keyed sha256 order parentIDs maxTxs now bc keyed
  | submitBlock block =>
    exact ⟨submitBlock_blocksKeyed block keyed.blocks,
      submitBlock_pendingStored block keyed.pending, keyed.pool⟩
  | snapshot order pass =>
    apply (snapshotPending_same order pass bc).keyed keyed
    unfold snapshotPending
    split <;> exact keyed.pending
  | verify pass index =>
    apply (verifyWorker_same pass index bc).keyed keyed
    rcases verifyWorker_cases pass index bc with
      idle | ⟨_, _, _, _, ⟨_, _, after⟩ | ⟨_, after⟩⟩
    · rw [idle]
      exact keyed.pending
    · rw [after]
      exact keyed.pending
    · rw [after]
      exact keyed.pending
  | accept pass index =>
    apply (acceptWorker_same pass index bc).keyed keyed
    rcases acceptWorker_cases pass index bc with idle | ⟨_, _, _, _, after⟩
    · rw [idle]
      exact keyed.pending
    · rw [after]
      exact keyed.pending
  | collect pass =>
    exact (collectResults_same pass bc).keyed keyed
      (collectResults_pendingStored pass keyed.pending)

/-- The only block of the new chain is the genesis block. -/
theorem newBlockchain_blocks {sha256 : List UInt8 → ID} {now : ℤ} {id : ID} {block : Block}
    (found : (newBlockchain sha256 now).blocks.lookup id = some block) :
    id = (newBlockchain sha256 now).genesisBlock.id ∧
      block = (newBlockchain sha256 now).genesisBlock := by
  have key : id = (newBlockchain sha256 now).genesisBlock.id :=
    (Finmap.mem_singleton _ _ _).mp (Finmap.mem_of_lookup_eq_some found)
  subst key
  refine ⟨rfl, ?_⟩
  simpa [newBlockchain, eq_comm] using found

/-- The keys of the new chain are right. -/
theorem newBlockchain_keyed (sha256 : List UInt8 → ID) (now : ℤ) :
    Keyed (newBlockchain sha256 now) := by
  constructor
  · intro id block found
    obtain ⟨key, rfl⟩ := newBlockchain_blocks found
    exact ⟨key.symm, Nat.zero_lt_one⟩
  · intro id block found
    simp [newBlockchain] at found
  · intro id tx found
    simp [newBlockchain] at found

/-- The keys are right in every reachable state. -/
theorem reachable_keyed (sha256 : List UInt8 → ID) (now : ℤ) (actions : List Action) :
    Keyed (runChain sha256 now actions) :=
  Runs.run_invariant (step sha256) Keyed (step_keyed sha256) (newBlockchain sha256 now) actions
    (newBlockchain_keyed sha256 now)

/-- A hash for concrete runs: the bytes as digits of a number, reduced to 256 bits. -/
def positionalHash (bytes : List UInt8) : ID :=
  let value := bytes.foldl (fun sum byte => (257 * sum + byte.toNat + 1) % 2 ^ 256) 0
  Vector.ofFn (fun index => UInt8.ofNat (value / 256 ^ index.val))

/-- Valid transactions with different IDs. -/
def sampleTx (number : UInt8) : Transaction :=
  ⟨number.toNat, Vector.replicate 32 number, [97], [98], 1, 0⟩

/-- The ID of the genesis block under this hash. -/
def genesisID : ID := positionalHash (headerBytes 0 [] 0)

/-- A block on the genesis block and a block on that one. -/
def lowerBlock : Block := newBlock positionalHash 1 0 [genesisID] [] 1

def upperBlock : Block := newBlock positionalHash 2 0 [lowerBlock.id] [] 2

/-- `CreateBlock` with at most one transaction, the maps visited by value. -/
def createOne (parentID : ID) : Action := .createBlock (byValue 32) [parentID] 1 0

end AvalancheParallel.Chain
