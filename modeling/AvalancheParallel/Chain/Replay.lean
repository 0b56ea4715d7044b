import AvalancheParallel.Chain.Selection

/-!
# Where a transaction can be

A transaction enters the pool by `AddTransaction` and leaves it for a block by
`CreateBlock`. The blocks ever created are recorded along a run, since `blocks`
may have lost some of them. `CreateBlock` never places an ID twice;
`AddTransaction` looks for the ID in the pool only, so an ID occurs twice exactly
when a transaction that is in a block already is added again.
-/

namespace AvalancheParallel.Chain

open AvalancheParallel.RangeLoop AvalancheParallel.Ids

/-- The state of the chain and the blocks created so far, in order. -/
structure History where
  bc : Blockchain
  created : List Block

/-- The block that an action creates, if any. -/
def createdBy (sha256 : List UInt8 → ID) (bc : Blockchain) : Action → List Block
  | .createBlock order parentIDs maxTxs now =>
    match (createBlock sha256 order parentIDs maxTxs now bc).2 with
    | .created block => [block]
    | _ => []
  | _ => []

/-- A call that returns no block creates none. -/
theorem createdBy_eq_nil {sha256 : List UInt8 → ID} {bc : Blockchain} {order : IterationOrder ID}
    {parentIDs : List ID} {maxTxs now : ℤ}
    (nothing : ∀ block, (createBlock sha256 order parentIDs maxTxs now bc).2 ≠ .created block) :
    createdBy sha256 bc (.createBlock order parentIDs maxTxs now) = [] := by
  cases made : (createBlock sha256 order parentIDs maxTxs now bc).2 with
  | created block => exact absurd made (nothing block)
  | failed error => simp only [createdBy, made]
  | panicked => simp only [createdBy, made]

/-- A step of the chain, with the block it creates recorded. -/
def recordStep (sha256 : List UInt8 → ID) (history : History) (action : Action) : History :=
  ⟨step sha256 history.bc action, history.created ++ createdBy sha256 history.bc action⟩

/-- The record begins with the new chain. -/
def newHistory (sha256 : List UInt8 → ID) (now : ℤ) : History := ⟨newBlockchain sha256 now, []⟩

/-- The IDs of the transactions in the blocks created. -/
def History.placed (history : History) : List ID :=
  history.created.flatMap (fun block => block.transactions.map Transaction.id)

/-- The IDs of the transactions in the pool and in the blocks created. -/
def History.occurrences (order : IterationOrder ID) (history : History) : List ID :=
  (order.values history.bc.txPool).map Transaction.id ++ history.placed

/-- Each ID occurs at most once. -/
def NoReplay (history : History) : Prop :=
  ∀ order txID, (history.occurrences order).count txID ≤ 1

/-- A valid transaction that is added is in no block yet. -/
def AddsUnplaced (history : History) : Action → Prop
  | .addTransaction tx => tx.verify = none → tx.id ∉ history.placed
  | _ => True

/-- A submitted block was returned by an earlier `CreateBlock`. -/
def SubmitsCreated (history : History) : Action → Prop
  | .submitBlock block => block ∈ history.created
  | _ => True

instance (history : History) (action : Action) : Decidable (SubmitsCreated history action) :=
  match action with
  | .submitBlock block => inferInstanceAs (Decidable (block ∈ history.created))
  | .addTransaction _ | .createBlock _ _ _ _ | .snapshot _ _ | .verify _ _ | .accept _ _
  | .collect _ => isTrue trivial

/-- The pool has each ID once, so only the blocks and their overlap with the pool matter. -/
theorem noReplay_iff {history : History} (keyed : PoolKeyed history.bc) :
    NoReplay history ↔
      history.placed.Nodup ∧ ∀ txID ∈ history.placed, txID ∉ history.bc.txPool := by
  have nodup : ∀ order : IterationOrder ID, (history.occurrences order).Nodup ↔
      history.placed.Nodup ∧ ∀ txID ∈ history.placed, txID ∉ history.bc.txPool := by
    intro order
    unfold History.occurrences
    rw [values_ids keyed.ids order, List.nodup_append']
    constructor
    · rintro ⟨_, distinct, apart⟩
      refine ⟨distinct, ?_⟩
      intro txID placed pooled
      exact apart ((order.mem_arrange _ txID).mpr (Finmap.mem_keys.mpr pooled)) placed
    · rintro ⟨distinct, apart⟩
      refine ⟨order.nodup _, distinct, ?_⟩
      intro txID pooled placed
      exact apart txID placed (Finmap.mem_keys.mp ((order.mem_arrange _ txID).mp pooled))
  constructor
  · intro once
    exact (nodup (byValue 32)).mp (List.nodup_iff_count_le_one.mpr (once (byValue 32)))
  · intro holds order
    exact List.nodup_iff_count_le_one.mp ((nodup order).mpr holds)

/-- Nothing is created and the pool stays as it is. -/
theorem noReplay_of_same {history after : History} (keyed : PoolKeyed history.bc)
    (pool : after.bc.txPool = history.bc.txPool) (created : after.created = history.created)
    (once : NoReplay history) : NoReplay after := by
  have keyedAfter : PoolKeyed after.bc := by
    unfold PoolKeyed
    rw [pool]
    exact keyed
  rw [noReplay_iff keyedAfter]
  unfold History.placed
  rw [pool, created]
  exact (noReplay_iff keyed).mp once

/-- `CreateBlock` moves IDs from the pool to its block. -/
theorem createBlock_noReplay (sha256 : List UInt8 → ID) (order : IterationOrder ID)
    (parentIDs : List ID) (maxTxs now : ℤ) {history : History} (keyed : Keyed history.bc)
    (once : NoReplay history) :
    NoReplay (recordStep sha256 history (.createBlock order parentIDs maxTxs now)) := by
  rcases createBlock_cases sha256 order parentIDs maxTxs now history.bc with
    ⟨_, same, nothing⟩ | ⟨_, after⟩
  · apply noReplay_of_same keyed.pool _ _ once
    · exact congrArg Blockchain.txPool same
    · unfold recordStep
      rw [createdBy_eq_nil nothing, List.append_nil]
  · obtain ⟨distinct, apart⟩ := (noReplay_iff keyed.pool).mp once
    let block := builtBlock sha256 order parentIDs maxTxs now history.bc
    have afterBlock : recordStep sha256 history (.createBlock order parentIDs maxTxs now) =
        ⟨storeBlock block history.bc, history.created ++ [block]⟩ := by
      simp only [recordStep, createdBy, step, after, block]
    have pooled : ∀ txID ∈ block.transactions.map Transaction.id, txID ∈ history.bc.txPool := by
      intro txID member
      obtain ⟨tx, taken, rfl⟩ := List.mem_map.mp member
      exact Finmap.mem_of_lookup_eq_some (selectTxs_pooled keyed.pool.ids taken)
    have placed : (History.mk (storeBlock block history.bc) (history.created ++ [block])).placed =
        history.placed ++ block.transactions.map Transaction.id := by
      simp [History.placed]
    have noneLeft : ∀ txID ∈ (storeBlock block history.bc).txPool,
        txID ∈ history.bc.txPool ∧ txID ∉ block.transactions.map Transaction.id := by
      intro txID member
      obtain ⟨tx, found⟩ := Finmap.mem_iff.mp member
      obtain ⟨earlier, left⟩ := (lookup_foldl_erase_some _ _ txID tx).mp found
      exact ⟨Finmap.mem_of_lookup_eq_some earlier, left⟩
    rw [afterBlock, noReplay_iff (storeBlock_poolKeyed block keyed.pool), placed,
      List.nodup_append']
    refine ⟨⟨distinct, selectTxs_nodup keyed.pool.ids order maxTxs, ?_⟩, ?_⟩
    · intro txID earlier taken
      exact apart txID earlier (pooled txID taken)
    · intro txID member left
      obtain ⟨before, untaken⟩ := noneLeft txID left
      rcases List.mem_append.mp member with earlier | taken
      · exact apart txID earlier before
      · exact untaken taken

/-- `AddTransaction` keeps IDs apart exactly when a valid transaction is in no block. -/
theorem addTransaction_noReplay_iff (sha256 : List UInt8 → ID) (tx : Transaction)
    {history : History} (keyed : Keyed history.bc) (once : NoReplay history) :
    NoReplay (recordStep sha256 history (.addTransaction tx)) ↔
      (tx.verify = none → tx.id ∉ history.placed) := by
  have keyedAfter : Keyed (recordStep sha256 history (.addTransaction tx)).bc :=
    step_keyed sha256 history.bc (.addTransaction tx) keyed
  have placed : (recordStep sha256 history (.addTransaction tx)).placed = history.placed := by
    simp [recordStep, createdBy, History.placed]
  obtain ⟨distinct, apart⟩ := (noReplay_iff keyed.pool).mp once
  rw [noReplay_iff keyedAfter.pool, placed]
  rcases addTransaction_cases tx history.bc with ⟨refused, idle⟩ | ⟨_, valid, _, after⟩
  · have pool : (recordStep sha256 history (.addTransaction tx)).bc = history.bc := idle
    rw [pool]
    refine iff_of_true ⟨distinct, apart⟩ ?_
    intro valid inBlock
    -- a valid transaction is refused only because it is in the pool
    have absent : tx.id ∉ history.bc.txPool := apart tx.id inBlock
    exact refused (by simp [addTransaction, valid, absent])
  · have pool : (recordStep sha256 history (.addTransaction tx)).bc.txPool =
        history.bc.txPool.insert tx.id tx := congrArg Blockchain.txPool after
    simp only [pool, Finmap.mem_insert, not_or]
    constructor
    · rintro ⟨_, separate⟩ _ inBlock
      exact (separate tx.id inBlock).1 rfl
    · intro unplaced
      refine ⟨distinct, ?_⟩
      intro txID inBlock
      refine ⟨?_, apart txID inBlock⟩
      rintro rfl
      exact unplaced valid inBlock

/-- A step keeps IDs apart exactly under the guard. -/
theorem recordStep_noReplay_iff (sha256 : List UInt8 → ID) (history : History) (action : Action)
    (keyed : Keyed history.bc) (once : NoReplay history) :
    NoReplay (recordStep sha256 history action) ↔ AddsUnplaced history action := by
  have idle : (step sha256 history.bc action).txPool = history.bc.txPool →
      createdBy sha256 history.bc action = [] →
      NoReplay (recordStep sha256 history action) := by
    intro pool created
    apply noReplay_of_same keyed.pool pool _ once
    unfold recordStep
    rw [created, List.append_nil]
  have phase : action.IsPhase → createdBy sha256 history.bc action = [] →
      NoReplay (recordStep sha256 history action) :=
    fun isPhase => idle (phase_same sha256 history.bc action isPhase).txPool
  cases action with
  | addTransaction tx => exact addTransaction_noReplay_iff sha256 tx keyed once
  | createBlock order parentIDs maxTxs now =>
    exact iff_true_intro (createBlock_noReplay sha256 order parentIDs maxTxs now keyed once)
  | submitBlock block => exact iff_true_intro (idle rfl rfl)
  | snapshot order pass => exact iff_true_intro (phase trivial rfl)
  | verify pass index => exact iff_true_intro (phase trivial rfl)
  | accept pass index => exact iff_true_intro (phase trivial rfl)
  | collect pass => exact iff_true_intro (phase trivial rfl)

/-- The new chain has no transactions, in the pool or in blocks. -/
theorem newHistory_noReplay (sha256 : List UInt8 → ID) (now : ℤ) :
    NoReplay (newHistory sha256 now) := by
  rw [noReplay_iff (newBlockchain_keyed sha256 now).pool]
  simp [newHistory, History.placed]

/-- No ID occurs twice in any state of a run exactly when every valid transaction added in
it is in no block created before. -/
theorem no_replay_iff (sha256 : List UInt8 → ID) (now : ℤ) (actions : List Action) :
    Runs.Always (recordStep sha256) NoReplay (newHistory sha256 now) actions ↔
      Runs.Along (recordStep sha256) AddsUnplaced (newHistory sha256 now) actions :=
  Runs.always_iff_along (recordStep sha256) (fun history => Keyed history.bc)
    (fun history action keyed => step_keyed sha256 history.bc action keyed)
    (fun history action => recordStep_noReplay_iff sha256 history action)
    actions (newBlockchain_keyed sha256 now) (newHistory_noReplay sha256 now)

/-- Adding the transaction of a new block again puts it into the pool a second time, and the
next block takes it again. -/
theorem transaction_replayed :
    let again := Runs.run (recordStep positionalHash) (newHistory positionalHash 0)
      [.addTransaction (sampleTx 1), createOne genesisID, .addTransaction (sampleTx 1)]
    (sampleTx 1).id ∈ again.placed ∧ (sampleTx 1).id ∈ again.bc.txPool ∧ ¬ NoReplay again ∧
      (recordStep positionalHash again (createOne genesisID)).placed =
        [(sampleTx 1).id, (sampleTx 1).id] := by
  intro again
  have twice : (again.occurrences (byValue 32)).count (sampleTx 1).id = 2 := by decide +kernel
  refine ⟨by decide +kernel, by decide +kernel, ?_, by decide +kernel⟩
  intro once
  have atMost := once (byValue 32) (sampleTx 1).id
  omega

end AvalancheParallel.Chain
