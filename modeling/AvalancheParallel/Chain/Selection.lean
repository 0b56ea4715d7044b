import AvalancheParallel.Chain.ChainLaws

/-!
# The transactions of a new block

`CreateBlock` takes transactions from the front of the pool in iteration order,
at least one if there is any, since it tests the bound only after it has taken
one. Which transactions it takes depends on the order; how many, and therefore
the ID of the new block, depends on the request and the state only.
-/

namespace AvalancheParallel.Chain

open AvalancheParallel.RangeLoop AvalancheParallel.Ids

/-- The number of transactions a request takes from the pool. -/
def takenCount (maxTxs : ℤ) (txPool : GoMap ID Transaction) : ℕ :=
  min txPool.keys.card (max 1 maxTxs).toNat

/-- The ID of the block a request leads to. -/
def requestID (sha256 : List UInt8 → ID) (parentIDs : List ID) (maxTxs : ℤ) (bc : Blockchain) :
    ID :=
  sha256 (headerBytes (nextHeight bc parentIDs) parentIDs (takenCount maxTxs bc.txPool))

/-- The selection loop takes transactions from the front. -/
theorem selectFrom_eq_take (maxTxs count : ℤ) (txs : List Transaction) :
    selectFrom maxTxs count txs = txs.take (max 1 (maxTxs - count)).toNat := by
  induction txs generalizing count with
  | nil => simp [selectFrom]
  | cons tx rest inductionHypothesis =>
    unfold selectFrom
    split
    · have one : (max 1 (maxTxs - count)).toNat = 1 := by omega
      simp [one]
    · have more : (max 1 (maxTxs - count)).toNat = (max 1 (maxTxs - (count + 1))).toNat + 1 := by
        omega
      rw [more, List.take_succ_cons, inductionHypothesis (count + 1)]

/-- The loop takes as many transactions as it may, but at least one. -/
theorem selectTxs_eq_take (order : IterationOrder ID) (maxTxs : ℤ)
    (txPool : GoMap ID Transaction) :
    selectTxs order maxTxs txPool = (order.values txPool).take (max 1 maxTxs).toNat := by
  have taken := selectFrom_eq_take maxTxs 0 (order.values txPool)
  rw [Int.sub_zero] at taken
  exact taken

/-- The transactions taken are the first ones visited. -/
theorem selectTxs_front (order : IterationOrder ID) (maxTxs : ℤ) (txPool : GoMap ID Transaction) :
    selectTxs order maxTxs txPool <+: order.values txPool := by
  rw [selectTxs_eq_take]
  exact List.take_prefix _ _

/-- Transactions are found under their own IDs. -/
def IDKeyed (txPool : GoMap ID Transaction) : Prop :=
  ∀ id tx, txPool.lookup id = some tx → tx.id = id

/-- The keys of the pool are the IDs of its transactions. -/
theorem PoolKeyed.ids {bc : Blockchain} (keyed : PoolKeyed bc) : IDKeyed bc.txPool :=
  fun id tx found => (keyed id tx found).1

variable {txPool : GoMap ID Transaction}

/-- A transaction that is taken was in the pool under its ID. -/
theorem selectTxs_pooled (keyed : IDKeyed txPool) {order : IterationOrder ID} {maxTxs : ℤ}
    {tx : Transaction} (taken : tx ∈ selectTxs order maxTxs txPool) :
    txPool.lookup tx.id = some tx := by
  have visited := (selectTxs_front order maxTxs txPool).subset taken
  obtain ⟨id, found⟩ := (order.mem_values txPool tx).mp visited
  rw [keyed id tx found]
  exact found

/-- The transactions are visited in the order of their IDs. -/
theorem values_ids (keyed : IDKeyed txPool) (order : IterationOrder ID) :
    (order.values txPool).map Transaction.id = order.arrange txPool.keys :=
  order.map_values txPool Transaction.id keyed

/-- No ID is taken twice. -/
theorem selectTxs_nodup (keyed : IDKeyed txPool) (order : IterationOrder ID) (maxTxs : ℤ) :
    ((selectTxs order maxTxs txPool).map Transaction.id).Nodup := by
  have sublist := (selectTxs_front order maxTxs txPool).sublist.map Transaction.id
  rw [values_ids keyed order] at sublist
  exact (order.nodup txPool.keys).sublist sublist

/-- As many transactions are visited as the pool has keys. -/
theorem values_length (keyed : IDKeyed txPool) (order : IterationOrder ID) :
    (order.values txPool).length = txPool.keys.card := by
  rw [← List.length_map Transaction.id, values_ids keyed order, order.length_arrange]

/-- The number of transactions taken depends on the size of the pool only. -/
theorem selectTxs_length (keyed : IDKeyed txPool) (order : IterationOrder ID) (maxTxs : ℤ) :
    (selectTxs order maxTxs txPool).length = takenCount maxTxs txPool := by
  rw [selectTxs_eq_take, List.length_take, values_length keyed order, min_comm]
  rfl

/-- Any transactions of the pool, in the right number, are taken in some order. -/
theorem exists_order_selecting (keyed : IDKeyed txPool) (maxTxs : ℤ) (txs : List Transaction)
    (distinct : (txs.map Transaction.id).Nodup)
    (pooled : ∀ tx ∈ txs, txPool.lookup tx.id = some tx)
    (count : txs.length = takenCount maxTxs txPool) :
    ∃ order : IterationOrder ID, selectTxs order maxTxs txPool = txs := by
  let order := (byValue 32).startingWith (txs.map Transaction.id) distinct
  refine ⟨order, ?_⟩
  have inPool : ∀ id ∈ txs.map Transaction.id, id ∈ txPool.keys := by
    intro id member
    obtain ⟨tx, inside, rfl⟩ := List.mem_map.mp member
    exact Finmap.mem_keys.mpr (Finmap.mem_of_lookup_eq_some (pooled tx inside))
  obtain ⟨rest, arranged⟩ := (byValue 32).startingWith_arrange (txs.map Transaction.id) distinct
    inPool
  have visited : order.values txPool = txs ++ rest.filterMap txPool.lookup := by
    have front : (txs.map Transaction.id).filterMap txPool.lookup = txs := by
      rw [List.filterMap_map, List.filterMap_congr (g := some)]
      · exact List.filterMap_some
      · exact pooled
    unfold IterationOrder.values
    rw [arranged, List.filterMap_append, front]
  have total := values_length keyed order
  rw [visited, List.length_append] at total
  rw [selectTxs_eq_take, visited, List.take_append]
  unfold takenCount at count
  -- either the loop stops right after the given transactions, or they are the whole pool
  rcases Nat.lt_or_ge (max 1 maxTxs).toNat txPool.keys.card with some | all
  · have exactly : (max 1 maxTxs).toNat = txs.length := by omega
    simp [exactly]
  · have nothing : rest.filterMap txPool.lookup = [] := List.length_eq_zero_iff.mp (by omega)
    rw [nothing, List.take_nil, List.append_nil]
    exact List.take_of_length_le (by omega)

/-- The ID of the block that is built does not depend on the iteration order. -/
theorem builtBlock_id (sha256 : List UInt8 → ID) (order : IterationOrder ID) (parentIDs : List ID)
    (maxTxs now : ℤ) {bc : Blockchain} (keyed : PoolKeyed bc) :
    (builtBlock sha256 order parentIDs maxTxs now bc).id =
      requestID sha256 parentIDs maxTxs bc := by
  unfold builtBlock newBlock requestID
  rw [selectTxs_length keyed.ids]

/-- The outcome of `CreateBlock` that a bound asks for: no panic, as many transactions of the pool
as the bound and the pool allow in the block, and exactly these taken out of the pool. -/
def TakesUpTo (maxTxs : ℤ) (bc : Blockchain) (outcome : Blockchain × CreateResult) : Prop :=
  match outcome.2 with
  | .panicked => False
  | .failed _ => outcome.1.txPool = bc.txPool
  | .created block =>
    (block.transactions.length : ℤ) = min (max maxTxs 0) bc.txPool.keys.card ∧
      block.transactions.Nodup ∧ (∀ tx ∈ block.transactions, bc.txPool.lookup tx.id = some tx) ∧
      ∀ id tx, outcome.1.txPool.lookup id = some tx ↔
        bc.txPool.lookup id = some tx ∧ tx ∉ block.transactions

/-- The transactions of the built block are pairwise distinct and leave the pool. -/
theorem storeBlock_takes (keyed : IDKeyed txPool) (order : IterationOrder ID) (maxTxs : ℤ)
    (id : ID) (tx : Transaction) :
    ((selectTxs order maxTxs txPool).foldl (fun pool tx => pool.erase tx.id) txPool).lookup id =
        some tx ↔
      txPool.lookup id = some tx ∧ tx ∉ selectTxs order maxTxs txPool := by
  rw [lookup_foldl_erase_some]
  refine and_congr_right (fun found => not_congr ?_)
  have own := keyed id tx found
  constructor
  · intro listed
    obtain ⟨other, taken, same⟩ := List.mem_map.mp listed
    have pooled := selectTxs_pooled keyed taken
    rw [same, found] at pooled
    rw [Option.some.inj pooled]
    exact taken
  · intro taken
    exact List.mem_map.mpr ⟨tx, taken, own⟩

/-- After every run, a request on known parents takes up to its bound exactly when the bound is
positive and in range, or zero with nothing to take. -/
theorem create_takes_iff (sha256 : List UInt8 → ID) (now : ℤ) (actions : List Action)
    (order : IterationOrder ID) (parentIDs : List ID) (maxTxs time : ℤ)
    (known : ∀ parentID ∈ parentIDs, parentID ∈ (runChain sha256 now actions).blocks) :
    TakesUpTo maxTxs (runChain sha256 now actions)
        (createBlock sha256 order parentIDs maxTxs time (runChain sha256 now actions)) ↔
      1 ≤ maxTxs ∧ maxTxs ≤ maxSliceCap ∨
        maxTxs = 0 ∧ (runChain sha256 now actions).txPool = ∅ := by
  have keyed := (reachable_keyed sha256 now actions).pool.ids
  generalize runChain sha256 now actions = bc at known keyed
  have nothingMissing : parentIDs.find? (fun parentID => decide (parentID ∉ bc.blocks)) = none := by
    rw [List.find?_eq_none]
    intro parentID member
    simpa using known parentID member
  unfold createBlock
  rw [nothingMissing]
  dsimp only
  split
  · rename_i outOfRange
    refine iff_of_false id ?_
    rintro (inRange | ⟨rfl, _⟩)
    · omega
    · exact absurd outOfRange (by decide)
  · rename_i inRange
    have count := selectTxs_length keyed order maxTxs
    unfold takenCount at count
    have empty : bc.txPool = ∅ ↔ bc.txPool.keys.card = 0 := by
      rw [Finset.card_eq_zero]
      constructor
      · intro none
        rw [none]
        exact Finmap.keys_empty
      · intro none
        apply Finmap.ext_lookup
        intro id
        rw [Finmap.lookup_empty, Finmap.lookup_eq_none, ← Finmap.mem_keys, none]
        exact Finset.notMem_empty id
    change (((selectTxs order maxTxs bc.txPool).length : ℤ) = _ ∧ _) ↔ _
    rw [empty]
    constructor
    · rintro ⟨exactly, _⟩
      omega
    · intro condition
      refine ⟨by omega, (selectTxs_nodup keyed order maxTxs).of_map,
        fun tx taken => selectTxs_pooled keyed taken, storeBlock_takes keyed order maxTxs⟩

/-- One of two pooled transactions is taken for a bound of one. -/
theorem one_of_two_taken :
    let actions := [.addTransaction (sampleTx 1), .addTransaction (sampleTx 2)]
    (runChain positionalHash 0 actions).txPool.keys.card = 2 ∧
      TakesUpTo 1 (runChain positionalHash 0 actions)
        (createBlock positionalHash (byValue 32) [genesisID] 1 0
          (runChain positionalHash 0 actions)) := by
  intro actions
  refine ⟨by decide +kernel, ?_⟩
  refine (create_takes_iff positionalHash 0 actions (byValue 32) [genesisID] 1 0 ?_).mpr
    (Or.inl ⟨by decide, by decide⟩)
  decide +kernel

/-- A bound of zero takes a transaction, and a negative one makes the call panic. -/
theorem zero_bound_takes_one :
    let bc := runChain positionalHash 0 [.addTransaction (sampleTx 1)]
    ¬ TakesUpTo 0 bc (createBlock positionalHash (byValue 32) [genesisID] 0 0 bc) ∧
      (createBlock positionalHash (byValue 32) [genesisID] (-1) 0 bc).2 = .panicked := by
  intro bc
  have created : (createBlock positionalHash (byValue 32) [genesisID] 0 0 bc).2 =
      .created (newBlock positionalHash 1 0 [genesisID] [sampleTx 1] 1) := by decide +kernel
  refine ⟨?_, by decide +kernel⟩
  unfold TakesUpTo
  rw [created]
  rintro ⟨count, _⟩
  exact absurd count (by decide +kernel)

end AvalancheParallel.Chain
