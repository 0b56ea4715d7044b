import AvalancheParallel.Chain.LatestBlocks
import AvalancheParallel.Consensus.ParallelDag

/-!
# Blocks in the parallel DAG

A `Block` is a `ParallelVertex`. The chain reads its `ParentIDs`, the parallel DAG
asks its `Parents`, which is documented to return the parents and returns an empty
list. The graph of the two is compared here: what the DAG records for blocks added in
any order, and what the chain reports for the same blocks submitted parents first.
-/

namespace AvalancheParallel.Chain

open AvalancheParallel.RangeLoop AvalancheParallel.Ids AvalancheParallel.Consensus

/-- The IDs of the vertices that `Block.Parents` returns. It never fails. -/
def Block.parents (_ : Block) : Option (List ID) := some []

/-- The DAG after `AddVertex` of each block. -/
def addBlocks (blocks : List Block) : ParallelDAG Block ID :=
  Runs.run (fun dag block => (dag.addVertex Block.id block block.parents).1) newParallelDAG blocks

/-- The IDs of `GetFrontier`. -/
def frontierIDs (order : IterationOrder ID) (dag : ParallelDAG Block ID) : List ID :=
  (dag.getFrontier order).map Block.id

/-- No block names itself or one submitted after it, and no ID is used twice. -/
def ParentsFirst (blocks : List Block) : Prop :=
  (blocks.map Block.id).Nodup ∧ ∀ earlier block later, blocks = earlier ++ block :: later →
    ∀ other ∈ block :: later, other.id ∉ block.parentIDs

/-- The DAG sees the graph of the blocks: their parents, the blocks that no block names, and
these are the ones that the chain reports when the blocks are submitted parents first. -/
structure SameGraph (dag : ParallelDAG Block ID) (blocks : List Block) : Prop where
  edges : ∀ block ∈ blocks, dag.edges.lookup block.id = some block.parentIDs
  frontier : ∀ order id, id ∈ frontierIDs order dag ↔
    (∃ block ∈ blocks, block.id = id) ∧ ¬ Named blocks id
  chain : ∀ sha256 now actions, (submitted actions).Perm blocks →
    ParentsFirst (submissions sha256 now actions) → ∀ order chainOrder, ∀ block ∈ blocks,
      block.id ∈ frontierIDs order dag ↔
        block ∈ getLatestBlocks chainOrder (runChain sha256 now actions)

/-- Submitted parents first, each block that is named is named later. -/
theorem ParentsFirst.edgeOrdered {blocks : List Block} (first : ParentsFirst blocks) :
    EdgeOrdered blocks := by
  obtain ⟨distinct, ordered⟩ := first
  rintro earlier block later ⟨rfl, fresh⟩
  constructor
  · rintro ⟨other, member, named⟩
    rcases List.mem_append.mp member with before | after
    · obtain ⟨start, rest, rfl⟩ := List.append_of_mem before
      exact absurd named (ordered start other (rest ++ block :: later) (by simp) block (by simp))
    · rcases List.mem_cons.mp after with rfl | beyond
      · exact absurd named (ordered earlier other later rfl other (by simp))
      · exact ⟨other, beyond, named⟩
  · intro _ other before same
    rw [List.map_append, List.map_cons, List.nodup_append'] at distinct
    exact absurd (same ▸ List.mem_cons_self) (distinct.2.2 (List.mem_map_of_mem before))

/-- The DAG holds the blocks without parents. -/
theorem addBlocks_shows {blocks : List Block} (distinct : (blocks.map Block.id).Nodup) :
    ParallelDAG.Shows Block.id (addBlocks blocks) (blocks.map (fun block => (block, []))) ∧
      (addBlocks blocks).Represents := by
  have added : addBlocks blocks = ParallelDAG.addVertices Block.id newParallelDAG
      (blocks.map (fun block => (block, []))) := by
    simp only [addBlocks, ParallelDAG.addVertices, Runs.run, List.foldl_map, Block.parents]
  rw [added]
  refine ⟨ParallelDAG.addVertices_shows Block.id _ ?_,
    ParallelDAG.addVertices_represents Block.id _ ParallelDAG.newParallelDAG_represents⟩
  simp only [List.mem_map]
  rintro _ ⟨block, member, rfl⟩ _ ⟨other, alsoMember, rfl⟩ same
  rw [List.inj_on_of_nodup_map distinct member alsoMember same]

/-- In the frontier of the DAG are all blocks, whatever they name. -/
theorem mem_frontierIDs {blocks : List Block} (distinct : (blocks.map Block.id).Nodup)
    (order : IterationOrder ID) (id : ID) :
    id ∈ frontierIDs order (addBlocks blocks) ↔ ∃ block ∈ blocks, block.id = id := by
  obtain ⟨shows, represents⟩ := addBlocks_shows distinct
  rw [frontierIDs, shows.mem_getFrontier represents]
  simp

/-- The graph of the DAG is that of the chain exactly for blocks without parents. -/
theorem block_graph_agrees_iff (blocks : List Block) (distinct : (blocks.map Block.id).Nodup) :
    SameGraph (addBlocks blocks) blocks ↔ ∀ block ∈ blocks, block.parentIDs = [] := by
  obtain ⟨shows, _⟩ := addBlocks_shows distinct
  have recorded : ∀ block ∈ blocks, (addBlocks blocks).edges.lookup block.id = some [] :=
    fun block member => shows.edges (block, []) (List.mem_map_of_mem member)
  constructor
  · intro same block member
    have edges := same.edges block member
    rw [recorded block member] at edges
    exact (Option.some.inj edges).symm
  · intro orphans
    have unnamed : ∀ id, ¬ Named blocks id := by
      rintro id ⟨block, member, named⟩
      rw [orphans block member] at named
      cases named
    constructor
    · intro block member
      rw [recorded block member, orphans block member]
    · intro order id
      rw [mem_frontierIDs distinct]
      exact (and_iff_left (unnamed id)).symm
    · intro sha256 now actions perm first order chainOrder block member
      have edge := (isEdge_iff_ordered (run_holdsStanding sha256 now actions)).mpr first.edgeOrdered
      rw [mem_frontierIDs distinct, mem_getLatestBlocks edge]
      refine iff_of_true ⟨block, member, rfl⟩ ⟨?_, ?_⟩
      · exact List.mem_cons_of_mem _ (perm.symm.subset member)
      · rintro ⟨other, listed, named⟩
        rcases List.mem_cons.mp listed with rfl | submitted
        · cases named
        · exact unnamed block.id ⟨other, perm.subset submitted, named⟩

/-- Two blocks without parents. -/
theorem orphan_blocks_agree :
    let blocks := [newBlock positionalHash 1 0 [] [] 1, newBlock positionalHash 2 0 [] [] 2]
    SameGraph (addBlocks blocks) blocks :=
  (block_graph_agrees_iff _ (by decide +kernel)).mpr (by simp [newBlock])

/-- The DAG records no parent for the upper block and keeps the lower one in its frontier. -/
theorem linked_blocks_disagree :
    frontierIDs (byValue 32) (addBlocks [lowerBlock, upperBlock]) =
        [lowerBlock.id, upperBlock.id] ∧
      lowerBlock.id ∈ upperBlock.parentIDs ∧
      ¬ SameGraph (addBlocks [lowerBlock, upperBlock]) [lowerBlock, upperBlock] := by
  refine ⟨by decide +kernel, by decide +kernel, ?_⟩
  intro same
  have edges := same.edges upperBlock (by simp)
  have recorded : (addBlocks [lowerBlock, upperBlock]).edges.lookup upperBlock.id = some [] := by
    decide +kernel
  rw [recorded] at edges
  have named : lowerBlock.id ∈ upperBlock.parentIDs := by decide +kernel
  rw [← Option.some.inj edges] at named
  cases named

end AvalancheParallel.Chain
