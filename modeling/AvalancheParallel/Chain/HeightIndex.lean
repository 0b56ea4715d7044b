import AvalancheParallel.Chain.Selection

/-!
# The height index

`blocks` and `blocksByHeight` describe the same set of blocks twice. `CreateBlock`
writes both, but in `blocks` it may replace a block that stays in the list of its
height; `SubmitBlock` writes `blocks` only. The two agree in every state of a run
exactly when `CreateBlock` replaces no block and `SubmitBlock` brings no block.
-/

namespace AvalancheParallel.Chain

open AvalancheParallel.RangeLoop AvalancheParallel.Ids

/-- `GetBlocksByHeight`. -/
def getBlocksByHeight (height : UInt64) (bc : Blockchain) : List Block :=
  (bc.blocksByHeight.lookup height).getD []

/-- The lists of the heights contain exactly the stored blocks, each once. -/
def HeightIndexed (bc : Blockchain) : Prop :=
  ∀ height, (getBlocksByHeight height bc).Nodup ∧
    ∀ block, block ∈ getBlocksByHeight height bc ↔
      (∃ id, bc.blocks.lookup id = some block) ∧ block.height = height

/-- No stored block has the ID of a block that is built, and a submitted block has the ID of
a stored one. -/
def IndexesNew (sha256 : List UInt8 → ID) (bc : Blockchain) : Action → Prop
  | .createBlock _ parentIDs maxTxs _ =>
    Builds parentIDs maxTxs bc → requestID sha256 parentIDs maxTxs bc ∉ bc.blocks
  | .submitBlock block => block.id ∈ bc.blocks
  | _ => True

/-- The index depends on two fields only. -/
theorem heightIndexed_congr {bc after : Blockchain} (blocks : after.blocks = bc.blocks)
    (index : after.blocksByHeight = bc.blocksByHeight) :
    HeightIndexed after ↔ HeightIndexed bc := by
  unfold HeightIndexed getBlocksByHeight
  rw [blocks, index]

/-- A stored block is added to the list of its height. -/
theorem storeBlock_getBlocksByHeight (block : Block) (bc : Blockchain) (height : UInt64) :
    getBlocksByHeight height (storeBlock block bc) =
      if height = block.height then getBlocksByHeight height bc ++ [block]
      else getBlocksByHeight height bc := by
  unfold getBlocksByHeight storeBlock
  by_cases same : height = block.height
  · subst same
    simp
  · simp [same, Finmap.lookup_insert_of_ne _ same]

/-- A block that is new in every respect keeps the index. -/
theorem storeBlock_heightIndexed {block : Block} {bc : Blockchain} (indexed : HeightIndexed bc)
    (newID : block.id ∉ bc.blocks) (newBlock : ∀ id, bc.blocks.lookup id ≠ some block) :
    HeightIndexed (storeBlock block bc) := by
  intro height
  obtain ⟨distinct, members⟩ := indexed height
  have stored : ∀ other, (∃ id, (storeBlock block bc).blocks.lookup id = some other) ↔
      other = block ∨ ∃ id, bc.blocks.lookup id = some other := by
    intro other
    constructor
    · rintro ⟨id, found⟩
      obtain ⟨_, same⟩ | ⟨_, earlier⟩ := lookup_insert_cases found
      · exact Or.inl same.symm
      · exact Or.inr ⟨id, earlier⟩
    · rintro (rfl | ⟨id, found⟩)
      · exact ⟨other.id, Finmap.lookup_insert bc.blocks⟩
      · have different : id ≠ block.id := by
          rintro rfl
          exact newID (Finmap.mem_of_lookup_eq_some found)
        exact ⟨id, (Finmap.lookup_insert_of_ne bc.blocks different).trans found⟩
  rw [storeBlock_getBlocksByHeight]
  split
  · rename_i here
    subst here
    constructor
    · rw [List.nodup_append]
      refine ⟨distinct, List.nodup_singleton block, ?_⟩
      intro other member last inside
      rw [List.mem_singleton] at inside
      subst inside
      rintro rfl
      obtain ⟨⟨id, found⟩, _⟩ := (members other).mp member
      exact newBlock id found
    · intro other
      rw [List.mem_append, members other, List.mem_singleton, stored other]
      constructor
      · rintro (⟨found, height⟩ | rfl)
        · exact ⟨Or.inr found, height⟩
        · exact ⟨Or.inl rfl, rfl⟩
      · rintro ⟨rfl | found, height⟩
        · exact Or.inr rfl
        · exact Or.inl ⟨found, height⟩
  · rename_i elsewhere
    refine ⟨distinct, ?_⟩
    intro other
    rw [members other, stored other]
    constructor
    · rintro ⟨found, height⟩
      exact ⟨Or.inr found, height⟩
    · rintro ⟨rfl | found, height⟩
      · exact absurd height.symm elsewhere
      · exact ⟨found, height⟩

/-- A block that replaces another one leaves the other one in the index. -/
theorem storeBlock_not_heightIndexed {block replaced : Block} {bc : Blockchain}
    (keyed : BlocksKeyed bc) (fresh : block.ref = bc.nextRef) (indexed : HeightIndexed bc)
    (found : bc.blocks.lookup block.id = some replaced) :
    ¬ HeightIndexed (storeBlock block bc) := by
  intro after
  have listed : replaced ∈ getBlocksByHeight replaced.height (storeBlock block bc) := by
    have before := ((indexed replaced.height).2 replaced).mpr ⟨⟨block.id, found⟩, rfl⟩
    rw [storeBlock_getBlocksByHeight]
    split
    · exact List.mem_append_left _ before
    · exact before
  obtain ⟨⟨id, stored⟩, _⟩ := ((after replaced.height).2 replaced).mp listed
  have older := keyed block.id replaced found
  obtain ⟨_, same⟩ | ⟨different, earlier⟩ := lookup_insert_cases stored
  · rw [same] at fresh
    omega
  · exact different ((keyed id replaced earlier).1.symm.trans older.1)

/-- Creating a block keeps the index exact just when its ID is new. -/
theorem createBlock_heightIndexed_iff (sha256 : List UInt8 → ID) (order : IterationOrder ID)
    (parentIDs : List ID) (maxTxs now : ℤ) {bc : Blockchain} (keyed : Keyed bc)
    (indexed : HeightIndexed bc) :
    HeightIndexed (createBlock sha256 order parentIDs maxTxs now bc).1 ↔
      (Builds parentIDs maxTxs bc → requestID sha256 parentIDs maxTxs bc ∉ bc.blocks) := by
  rcases createBlock_cases sha256 order parentIDs maxTxs now bc with
    ⟨stuck, same, _⟩ | ⟨builds, after⟩
  · rw [same]
    exact iff_of_true indexed (fun builds => absurd builds stuck)
  · have id := builtBlock_id sha256 order parentIDs maxTxs now keyed.pool
    rw [after, ← id]
    constructor
    · intro holds _ member
      obtain ⟨replaced, found⟩ := Finmap.mem_iff.mp member
      exact storeBlock_not_heightIndexed keyed.blocks rfl indexed found holds
    · intro newID
      apply storeBlock_heightIndexed indexed (newID builds)
      intro key found
      exact Nat.lt_irrefl bc.nextRef (keyed.blocks key _ found).2

/-- Submitting a block keeps the index exact just when it is stored already. -/
theorem submitBlock_heightIndexed_iff (block : Block) {bc : Blockchain} (keyed : Keyed bc)
    (indexed : HeightIndexed bc) :
    HeightIndexed (submitBlock block bc) ↔ block.id ∈ bc.blocks := by
  constructor
  · intro after
    by_contra unknown
    have stored : (submitBlock block bc).blocks.lookup block.id = some block := by
      rw [submitBlock_lookup, if_pos ⟨rfl, unknown⟩]
    have listed := ((after block.height).2 block).mpr ⟨⟨block.id, stored⟩, rfl⟩
    obtain ⟨⟨id, found⟩, _⟩ := ((indexed block.height).2 block).mp listed
    have key := (keyed.blocks id block found).1
    rw [key] at unknown
    exact unknown (Finmap.mem_of_lookup_eq_some found)
  · intro known
    have same : (submitBlock block bc).blocks = bc.blocks := by simp [submitBlock, known]
    exact (heightIndexed_congr same rfl).mpr indexed

/-- A step keeps the index exactly under the guard. -/
theorem step_heightIndexed_iff (sha256 : List UInt8 → ID) (bc : Blockchain) (action : Action)
    (keyed : Keyed bc) (indexed : HeightIndexed bc) :
    HeightIndexed (step sha256 bc action) ↔ IndexesNew sha256 bc action := by
  have phase : action.IsPhase → (HeightIndexed (step sha256 bc action) ↔ True) := by
    intro isPhase
    have same := phase_same sha256 bc action isPhase
    exact iff_true_intro ((heightIndexed_congr same.blocks same.blocksByHeight).mpr indexed)
  cases action with
  | addTransaction tx =>
    refine iff_true_intro ?_
    rcases addTransaction_cases tx bc with ⟨_, idle⟩ | ⟨_, _, _, after⟩
    · exact (congrArg HeightIndexed idle).mpr indexed
    · exact (congrArg HeightIndexed after).mpr indexed
  | createBlock order parentIDs maxTxs now =>
    exact createBlock_heightIndexed_iff sha256 order parentIDs maxTxs now keyed indexed
  | submitBlock block => exact submitBlock_heightIndexed_iff block keyed indexed
  | snapshot order pass => exact phase trivial
  | verify pass index => exact phase trivial
  | accept pass index => exact phase trivial
  | collect pass => exact phase trivial

/-- The index of the new chain is exact. -/
theorem newBlockchain_heightIndexed (sha256 : List UInt8 → ID) (now : ℤ) :
    HeightIndexed (newBlockchain sha256 now) := by
  intro height
  by_cases zero : height = 0
  · subst zero
    have list : getBlocksByHeight 0 (newBlockchain sha256 now) =
        [(newBlockchain sha256 now).genesisBlock] := rfl
    rw [list]
    refine ⟨List.nodup_singleton _, ?_⟩
    intro block
    rw [List.mem_singleton]
    constructor
    · rintro rfl
      exact ⟨⟨(newBlockchain sha256 now).genesisBlock.id, Finmap.lookup_singleton_eq⟩, rfl⟩
    · rintro ⟨⟨id, found⟩, _⟩
      exact (newBlockchain_blocks found).2
  · have list : getBlocksByHeight height (newBlockchain sha256 now) = [] := by
      unfold getBlocksByHeight
      rw [Finmap.lookup_eq_none.mpr]
      · rfl
      · intro member
        exact zero ((Finmap.mem_singleton _ _ _).mp member)
    rw [list]
    refine ⟨List.nodup_nil, ?_⟩
    intro block
    constructor
    · intro member
      cases member
    · rintro ⟨⟨id, found⟩, here⟩
      rw [(newBlockchain_blocks found).2] at here
      exact absurd here.symm zero

/-- The height index agrees with the stored blocks in every state of a run exactly when no
step of the run replaces a stored block or brings one by `SubmitBlock`. -/
theorem height_index_iff (sha256 : List UInt8 → ID) (now : ℤ) (actions : List Action) :
    Runs.Always (step sha256) HeightIndexed (newBlockchain sha256 now) actions ↔
      Runs.Along (step sha256) (IndexesNew sha256) (newBlockchain sha256 now) actions :=
  Runs.always_iff_along (step sha256) Keyed (step_keyed sha256) (step_heightIndexed_iff sha256)
    actions (newBlockchain_keyed sha256 now) (newBlockchain_heightIndexed sha256 now)

/-- A block built elsewhere on the genesis block. -/
def foreignBlock : Block := newBlock positionalHash 1 0 [genesisID] [sampleTx 1] 1

/-- After its submission the block is stored, and no list of a height contains it. -/
theorem submitted_block_not_indexed :
    let bc := runChain positionalHash 0 [.submitBlock foreignBlock]
    bc.blocks.lookup foreignBlock.id = some foreignBlock ∧
      getBlocksByHeight foreignBlock.height bc = [] ∧ ¬ HeightIndexed bc := by
  intro bc
  have stored : bc.blocks.lookup foreignBlock.id = some foreignBlock := by decide +kernel
  have list : getBlocksByHeight foreignBlock.height bc = [] := by decide +kernel
  refine ⟨stored, list, ?_⟩
  intro indexed
  have listed := ((indexed foreignBlock.height).2 foreignBlock).mpr ⟨⟨_, stored⟩, rfl⟩
  rw [list] at listed
  cases listed

end AvalancheParallel.Chain
