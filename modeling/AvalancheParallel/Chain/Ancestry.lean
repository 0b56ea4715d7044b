import AvalancheParallel.Chain.PassLaws
import AvalancheParallel.Chain.Selection

/-!
# Ancestors of accepted blocks

`ProcessPendingBlocks` accepts each block that passes `Verify`, without a look at
its parents. A parent is then accepted too if it was accepted before or passes
`Verify` in the same snapshot. `CreateBlock` makes sure that parents are stored,
`SubmitBlock` does not, and a stored parent may still fail `Verify`; so the state
in which a pass begins decides whether the accepted blocks stay closed under
ancestors.
-/

namespace AvalancheParallel.Chain

open AvalancheParallel.RangeLoop AvalancheParallel.Ids

/-- Every parent of an accepted block is accepted. -/
def AncestorClosed (bc : Blockchain) : Prop :=
  ∀ id block, bc.acceptedBlocks.lookup id = some block →
    ∀ parentID ∈ block.parentIDs, parentID ∈ bc.acceptedBlocks

/-- The ID is accepted, or it is that of a listed block that passes `Verify`. -/
def Covered (bc : Blockchain) (blocks : List Block) (id : ID) : Prop :=
  id ∈ bc.acceptedBlocks ∨ ∃ block ∈ blocks, block.verify = none ∧ block.id = id

instance (bc : Blockchain) (blocks : List Block) (id : ID) : Decidable (Covered bc blocks id) :=
  inferInstanceAs (Decidable (_ ∨ _))

/-- When a pass begins, the parents of the pending blocks that pass `Verify` are accepted or
pending blocks that pass `Verify`; and when `CreateBlock` builds a block with the ID of a
block in the snapshot of a running pass, the same holds of its parents in that snapshot. -/
def KeepsAncestors (sha256 : List UInt8 → ID) (bc : Blockchain) : Action → Prop
  | .snapshot order pass => pass ∉ bc.passes →
      ∀ block ∈ order.values bc.pendingBlocks, block.verify = none →
        ∀ parentID ∈ block.parentIDs, Covered bc (order.values bc.pendingBlocks) parentID
  | .createBlock _ parentIDs maxTxs _ => Builds parentIDs maxTxs bc →
      ∀ pass running, bc.passes.lookup pass = some running →
        ∀ block ∈ running.snapshot, block.verify = none →
          block.id = requestID sha256 parentIDs maxTxs bc →
          ∀ parentID ∈ parentIDs, Covered bc running.snapshot parentID
  | _ => True

/-- What is stored under the IDs a pass is going to accept has covered parents. -/
def PassCovered (bc : Blockchain) (running : Pass) : Prop :=
  ∀ block ∈ running.snapshot, block.verify = none →
    ∃ stored, bc.blocks.lookup block.id = some stored ∧
      ∀ parentID ∈ stored.parentIDs, Covered bc running.snapshot parentID

/-- The invariant of runs that keep ancestors. -/
structure AncestrySound (bc : Blockchain) : Prop where
  keyed : Keyed bc
  closed : AncestorClosed bc
  consistent : PassesConsistent bc
  covered : ∀ pass running, bc.passes.lookup pass = some running → PassCovered bc running

/-- What is covered stays covered when more is accepted. -/
theorem Covered.mono {bc after : Blockchain} {blocks : List Block} {id : ID}
    (accepted : ∀ id ∈ bc.acceptedBlocks, id ∈ after.acceptedBlocks)
    (covered : Covered bc blocks id) : Covered after blocks id :=
  covered.imp_left (accepted id)

/-- The blocks of a pass stay covered when more is accepted and none is replaced. -/
theorem PassCovered.mono {bc after : Blockchain} {running : Pass}
    (accepted : ∀ id ∈ bc.acceptedBlocks, id ∈ after.acceptedBlocks)
    (stays : ∀ id block, bc.blocks.lookup id = some block → after.blocks.lookup id = some block)
    (covered : PassCovered bc running) : PassCovered after running := by
  intro block inside verified
  obtain ⟨stored, found, parents⟩ := covered block inside verified
  exact ⟨stored, stays block.id stored found,
    fun parentID member => (parents parentID member).mono accepted⟩

/-- A step keeps the passes covered when it does so with those that run and with the one
that it begins. -/
theorem step_covered (sha256 : List UInt8 → ID) (bc : Blockchain) (action : Action)
    (sound : AncestrySound bc)
    (kept : ∀ pass running, bc.passes.lookup pass = some running → PassCovered bc running →
      PassCovered (step sha256 bc action) running)
    (begun : ∀ order pass, action = .snapshot order pass → pass ∉ bc.passes →
      PassCovered (step sha256 bc action) (startedPass order bc))
    (pass : ℕ) (running : Pass)
    (found : (step sha256 bc action).passes.lookup pass = some running) :
    PassCovered (step sha256 bc action) running := by
  rcases step_passes sha256 bc action pass running found with
    earlier | ⟨order, taken, free, rfl⟩ | ⟨before, known, advance⟩
  · exact kept pass running earlier (sound.covered pass running earlier)
  · exact begun order pass taken free
  · have covered := kept pass before known (sound.covered pass before known)
    unfold PassCovered
    rw [advance.snapshot]
    exact covered

/-- A step that accepts nothing and begins no pass keeps the invariant when the passes stay
covered. -/
theorem AncestrySound.step_of_same {sha256 : List UInt8 → ID} {bc : Blockchain} {action : Action}
    (sound : AncestrySound bc)
    (accepted : (step sha256 bc action).acceptedBlocks = bc.acceptedBlocks)
    (covered : ∀ pass running, (step sha256 bc action).passes.lookup pass = some running →
      PassCovered (step sha256 bc action) running) : AncestrySound (step sha256 bc action) where
  keyed := step_keyed sha256 bc action sound.keyed
  closed := by
    unfold AncestorClosed
    rw [accepted]
    exact sound.closed
  consistent := step_passesConsistent sha256 bc action sound.consistent
  covered := covered

/-- A step that accepts nothing, replaces no stored block and begins no pass. -/
theorem AncestrySound.step_of_stays {sha256 : List UInt8 → ID} {bc : Blockchain} {action : Action}
    (sound : AncestrySound bc)
    (accepted : (step sha256 bc action).acceptedBlocks = bc.acceptedBlocks)
    (stays : ∀ id block, bc.blocks.lookup id = some block →
      (step sha256 bc action).blocks.lookup id = some block)
    (noSnapshot : ∀ order pass, action ≠ .snapshot order pass) :
    AncestrySound (step sha256 bc action) := by
  apply sound.step_of_same accepted
  apply step_covered sha256 bc action sound
  · intro pass running _ covered
    exact covered.mono (fun id member => accepted ▸ member) stays
  · intro order pass taken
    exact absurd taken (noSnapshot order pass)

/-- Creating a block keeps the accepted blocks closed under parents, unless it replaces an ancestor.
-/
theorem createBlock_ancestry (sha256 : List UInt8 → ID) (order : IterationOrder ID)
    (parentIDs : List ID) (maxTxs now : ℤ) (bc : Blockchain)
    (guarded : KeepsAncestors sha256 bc (.createBlock order parentIDs maxTxs now))
    (sound : AncestrySound bc) :
    AncestrySound (step sha256 bc (.createBlock order parentIDs maxTxs now)) := by
  rcases createBlock_cases sha256 order parentIDs maxTxs now bc with ⟨_, same, _⟩ | ⟨builds, after⟩
  · have idle : step sha256 bc (.createBlock order parentIDs maxTxs now) = bc := same
    rw [idle]
    exact sound
  · have stored : step sha256 bc (.createBlock order parentIDs maxTxs now) =
        storeBlock (builtBlock sha256 order parentIDs maxTxs now bc) bc :=
      congrArg Prod.fst after
    have id := builtBlock_id sha256 order parentIDs maxTxs now sound.keyed.pool
    apply sound.step_of_same
    · rw [stored]
      rfl
    · apply step_covered sha256 bc _ sound
      · rw [stored]
        intro pass running found covered block inside verified
        by_cases replaced : block.id = (builtBlock sha256 order parentIDs maxTxs now bc).id
        · refine ⟨builtBlock sha256 order parentIDs maxTxs now bc, ?_, ?_⟩
          · rw [replaced]
            exact Finmap.lookup_insert bc.blocks
          · exact guarded builds pass running found block inside verified (replaced.trans id)
        · obtain ⟨other, lookup, parents⟩ := covered block inside verified
          exact ⟨other, (Finmap.lookup_insert_of_ne bc.blocks replaced).trans lookup, parents⟩
      · intro order pass taken
        cases taken

/-- A pass that begins is covered because pending blocks are stored under their IDs. -/
theorem snapshot_ancestry (sha256 : List UInt8 → ID) (order : IterationOrder ID) (pass : ℕ)
    (bc : Blockchain) (guarded : KeepsAncestors sha256 bc (.snapshot order pass))
    (sound : AncestrySound bc) : AncestrySound (step sha256 bc (.snapshot order pass)) := by
  have same := snapshotPending_same order pass bc
  have accepted : (step sha256 bc (.snapshot order pass)).acceptedBlocks = bc.acceptedBlocks := by
    rcases snapshotPending_cases order pass bc with ⟨_, idle⟩ | ⟨_, after⟩
    · simp only [step, idle]
    · simp only [step, after]
  have keys : ∀ id ∈ bc.acceptedBlocks,
      id ∈ (step sha256 bc (.snapshot order pass)).acceptedBlocks :=
    fun id member => accepted ▸ member
  have stays : ∀ id block, bc.blocks.lookup id = some block →
      (step sha256 bc (.snapshot order pass)).blocks.lookup id = some block :=
    fun id block found => same.blocks ▸ found
  apply sound.step_of_same accepted
  apply step_covered sha256 bc _ sound
  · intro _ running _ covered
    exact covered.mono keys stays
  · intro taken other begun free
    cases begun
    have covered : PassCovered bc (startedPass order bc) := by
      intro block inside verified
      obtain ⟨id, pending⟩ := (order.mem_values bc.pendingBlocks block).mp inside
      have stored := sound.keyed.pending id block pending
      have key := (sound.keyed.blocks id block stored).1
      exact ⟨block, key ▸ stored, guarded free block inside verified⟩
    exact covered.mono keys stays

/-- A finished pass accepts its covered blocks together. -/
theorem collect_ancestry (sha256 : List UInt8 → ID) (pass : ℕ) (bc : Blockchain)
    (sound : AncestrySound bc) : AncestrySound (step sha256 bc (.collect pass)) := by
  rcases collectResults_cases pass bc with idle | ⟨running, found, noneWaiting, noneVerified, after⟩
  · have same : step sha256 bc (.collect pass) = bc := idle
    rw [same]
    exact sound
  · have consistent := sound.consistent pass running found
    have covered := sound.covered pass running found
    have delivered := consistent.delivered_iff noneWaiting noneVerified
    have stored : ∀ id, (id, none) ∈ running.results → id ∈ bc.blocks := by
      intro id member
      obtain ⟨block, inside, verified, rfl⟩ := (delivered id).mp member
      obtain ⟨other, lookup, _⟩ := covered block inside verified
      exact Finmap.mem_of_lookup_eq_some lookup
    have accepted : ∀ id, (step sha256 bc (.collect pass)).acceptedBlocks.lookup id =
        if (id, none) ∈ running.results then bc.blocks.lookup id
        else bc.acceptedBlocks.lookup id := by
      intro id
      rw [← collectLoop_accepted running.results 0 bc stored id]
      simp only [step, after]
      rfl
    have keys : ∀ id, id ∈ bc.acceptedBlocks ∨ (id, none) ∈ running.results →
        id ∈ (step sha256 bc (.collect pass)).acceptedBlocks := by
      intro id either
      rw [Finmap.mem_iff, accepted id]
      split
      · rename_i member
        exact Finmap.mem_iff.mp (stored id member)
      · rename_i absent
        exact Finmap.mem_iff.mp (either.resolve_right absent)
    have same := collectResults_same pass bc
    refine ⟨step_keyed sha256 bc (.collect pass) sound.keyed, ?_,
      step_passesConsistent sha256 bc (.collect pass) sound.consistent, ?_⟩
    · intro id block lookup parentID named
      rw [accepted id] at lookup
      apply keys
      split at lookup
      · rename_i member
        obtain ⟨verifying, inside, verified, rfl⟩ := (delivered id).mp member
        obtain ⟨other, here, parents⟩ := covered verifying inside verified
        rw [lookup] at here
        cases here
        exact (parents parentID named).imp_right (delivered parentID).mpr
      · exact Or.inl (sound.closed id block lookup parentID named)
    · apply step_covered sha256 bc _ sound
      · intro _ other _ before
        exact before.mono (fun id member => keys id (Or.inl member))
          (fun id block lookup => same.blocks ▸ lookup)
      · intro order other begun
        cases begun

/-- A guarded step keeps the invariant. -/
theorem step_ancestry (sha256 : List UInt8 → ID) (bc : Blockchain) (action : Action)
    (guarded : KeepsAncestors sha256 bc action) (sound : AncestrySound bc) :
    AncestrySound (step sha256 bc action) := by
  cases action with
  | addTransaction tx =>
    rcases addTransaction_cases tx bc with ⟨_, idle⟩ | ⟨_, _, _, after⟩
    · have same : step sha256 bc (.addTransaction tx) = bc := idle
      rw [same]
      exact sound
    · apply sound.step_of_stays
      · simp only [step, after]
      · intro id block found
        simp only [step, after]
        exact found
      · intro order pass taken
        cases taken
  | createBlock order parentIDs maxTxs now =>
    exact createBlock_ancestry sha256 order parentIDs maxTxs now bc guarded sound
  | submitBlock block =>
    apply sound.step_of_stays rfl
    · intro id other found
      have lookup := submitBlock_lookup block bc id
      split at lookup
      · rename_i new
        exact absurd (Finmap.mem_of_lookup_eq_some (new.1 ▸ found)) new.2
      · exact lookup.trans found
    · intro order pass taken
      cases taken
  | snapshot order pass => exact snapshot_ancestry sha256 order pass bc guarded sound
  | verify pass index =>
    have same := verifyWorker_same pass index bc
    apply sound.step_of_stays
    · rcases verifyWorker_cases pass index bc with
        idle | ⟨_, _, _, _, ⟨_, _, after⟩ | ⟨_, after⟩⟩
      · simp only [step, idle]
      · simp only [step, after]
      · simp only [step, after]
    · intro id block found
      exact same.blocks ▸ found
    · intro order other taken
      cases taken
  | accept pass index =>
    have same := acceptWorker_same pass index bc
    apply sound.step_of_stays
    · rcases acceptWorker_cases pass index bc with idle | ⟨_, _, _, _, after⟩
      · simp only [step, idle]
      · simp only [step, after]
    · intro id block found
      exact same.blocks ▸ found
    · intro order other taken
      cases taken
  | collect pass => exact collect_ancestry sha256 pass bc sound

/-- The genesis block has no parents. -/
theorem newBlockchain_ancestry (sha256 : List UInt8 → ID) (now : ℤ) :
    AncestrySound (newBlockchain sha256 now) := by
  refine ⟨newBlockchain_keyed sha256 now, ?_, ?_, ?_⟩
  · intro id block found parentID named
    rw [(newBlockchain_blocks found).2] at named
    cases named
  · intro pass running found
    rw [newBlockchain_passes] at found
    cases found
  · intro pass running found
    rw [newBlockchain_passes] at found
    cases found

/-- In every run whose passes begin with covered parents, in every state the parents of
accepted blocks are accepted. -/
theorem accepted_blocks_ancestor_closed (sha256 : List UInt8 → ID) (now : ℤ)
    (actions : List Action)
    (along : Runs.Along (step sha256) (KeepsAncestors sha256) (newBlockchain sha256 now) actions) :
    Runs.Always (step sha256) AncestorClosed (newBlockchain sha256 now) actions := by
  have sound := along.always (step sha256) AncestrySound
    (fun bc action guarded before => step_ancestry sha256 bc action guarded before)
    (newBlockchain_ancestry sha256 now)
  exact sound.imp (step sha256) (fun _ holds => holds.closed)

/-- An accepted block with a parent that is not accepted refutes the closure. -/
theorem not_closed_of_missing {bc : Blockchain} {id parentID : ID} {block : Block}
    (accepted : bc.acceptedBlocks.lookup id = some block) (named : parentID ∈ block.parentIDs)
    (missing : parentID ∉ bc.acceptedBlocks) : ¬ AncestorClosed bc :=
  fun closed => missing (closed id block accepted parentID named)

/-- A pass over one pending block. -/
def singlePass : List Action :=
  [.snapshot (byValue 32) 0, .verify 0 0, .accept 0 0, .collect 0]

/-- Submitted without its parent, a block is accepted alone. -/
theorem orphan_accepted :
    let bc := runChain positionalHash 0 (.submitBlock upperBlock :: singlePass)
    bc.acceptedBlocks.lookup upperBlock.id = some upperBlock ∧
      lowerBlock.id ∈ upperBlock.parentIDs ∧ lowerBlock.id ∉ bc.acceptedBlocks ∧
      ¬ AncestorClosed bc := by
  intro bc
  have accepted : bc.acceptedBlocks.lookup upperBlock.id = some upperBlock := by decide +kernel
  have missing : lowerBlock.id ∉ bc.acceptedBlocks := by decide +kernel
  have named : lowerBlock.id ∈ upperBlock.parentIDs := by decide +kernel
  exact ⟨accepted, named, missing, not_closed_of_missing accepted named missing⟩

/-- While no pass runs, any block may be built. -/
theorem keepsAncestors_of_idle (sha256 : List UInt8 → ID) (bc : Blockchain)
    (order : IterationOrder ID) (parentIDs : List ID) (maxTxs now : ℤ)
    (idle : bc.passes.keys = ∅) :
    KeepsAncestors sha256 bc (.createBlock order parentIDs maxTxs now) := by
  intro _ pass running found
  have member := Finmap.mem_keys.mpr (Finmap.mem_of_lookup_eq_some found)
  rw [idle] at member
  cases member

/-- A created block and a block submitted on top of it are accepted together. -/
theorem stacked_blocks_ancestor_closed :
    Runs.Always (step positionalHash) AncestorClosed (newBlockchain positionalHash 0)
      [.createBlock (byValue 32) [genesisID] 0 0, .submitBlock upperBlock,
        .snapshot (byValue 32) 0, .verify 0 1, .verify 0 0, .accept 0 0, .accept 0 0,
        .collect 0] := by
  apply accepted_blocks_ancestor_closed
  refine ⟨keepsAncestors_of_idle _ _ _ _ _ _ (by decide +kernel), trivial, ?_, trivial, trivial,
    trivial, trivial, trivial, trivial⟩
  intro _
  decide +kernel

end AvalancheParallel.Chain
