import AvalancheParallel.Chain.ChainLaws

/-!
# Accepted blocks have been verified

`ProcessPendingBlocks` verifies the blocks of its snapshot and later marks as
accepted whatever is stored under their IDs. The two agree as long as no block of
a running pass is replaced in between. `CreateBlock` replaces a block when it
builds one with the same header; when it does so with an accepted block, the ID
becomes pending again.
-/

namespace AvalancheParallel.Chain

open AvalancheParallel.RangeLoop AvalancheParallel.Ids AvalancheParallel.Choices

/-- The block itself passed `Verify` and its status is `Accepted`. -/
structure Vouched (bc : Blockchain) (block : Block) : Prop where
  verified : block.verify = none
  passed : block ∈ bc.passed
  status : bc.blockStatus block = .accepted

/-- Accepted blocks other than genesis are vouched for, and the accepted and the pending
IDs divide the stored ones. -/
structure OnlyVerified (bc : Blockchain) : Prop where
  vouched : ∀ id block, bc.acceptedBlocks.lookup id = some block →
    block = bc.genesisBlock ∨ Vouched bc block
  disjoint : ∀ id, id ∈ bc.acceptedBlocks → id ∉ bc.pendingBlocks
  union : ∀ id, id ∈ bc.blocks ↔ id ∈ bc.acceptedBlocks ∨ id ∈ bc.pendingBlocks

/-- Blocks that must not be replaced: the accepted ones, and those that pass `Verify` in
the snapshot of a running pass. -/
def AtRisk (bc : Blockchain) (block : Block) : Prop :=
  bc.acceptedBlocks.lookup block.id = some block ∨
    ∃ pass running, bc.passes.lookup pass = some running ∧ block ∈ running.snapshot ∧
      block.verify = none

/-- The ID of the block is the ID of the block about to be built only if both have the
same header: hashes do not collide, and the ID was computed from the header. -/
def Block.OwnID (sha256 : List UInt8 → ID) (block : Block) (order : IterationOrder ID)
    (parentIDs : List ID) (maxTxs now : ℤ) (bc : Blockchain) : Prop :=
  block.id = (builtBlock sha256 order parentIDs maxTxs now bc).id →
    block.generateBytes = (builtBlock sha256 order parentIDs maxTxs now bc).generateBytes

instance (sha256 : List UInt8 → ID) (block : Block) (order : IterationOrder ID)
    (parentIDs : List ID) (maxTxs now : ℤ) (bc : Blockchain) :
    Decidable (block.OwnID sha256 order parentIDs maxTxs now bc) :=
  inferInstanceAs (Decidable (_ → _))

/-- `CreateBlock` builds no twin of a block at risk. -/
def KeepsAtRisk (sha256 : List UInt8 → ID) (bc : Blockchain) : Action → Prop
  | .createBlock order parentIDs maxTxs now => Builds parentIDs maxTxs bc →
      ∀ block, AtRisk bc block → block.OwnID sha256 order parentIDs maxTxs now bc ∧
        ¬ block.Twin order parentIDs maxTxs bc
  | _ => True

/-- What is known of a running pass. -/
structure PassSound (bc : Blockchain) (running : Pass) : Prop where
  stored : ∀ block ∈ running.snapshot, block.verify = none →
    bc.blocks.lookup block.id = some block
  waiting : ∀ block ∈ running.waiting, block ∈ running.snapshot
  verified : ∀ block ∈ running.verified,
    block ∈ running.snapshot ∧ block.verify = none ∧ block ∈ bc.passed
  results : ∀ id, (id, none) ∈ running.results →
    ∃ block ∈ running.snapshot, block.id = id ∧ Vouched bc block

/-- A pass stays sound when its verified blocks stay stored and vouched for. -/
theorem PassSound.mono {bc after : Blockchain} {running : Pass} (sound : PassSound bc running)
    (stored : ∀ block ∈ running.snapshot, block.verify = none →
      after.blocks.lookup block.id = some block)
    (passed : ∀ block ∈ bc.passed, block ∈ after.passed)
    (vouched : ∀ block ∈ running.snapshot, Vouched bc block → Vouched after block) :
    PassSound after running where
  stored := stored
  waiting := sound.waiting
  verified := fun block member =>
    have facts := sound.verified block member
    ⟨facts.1, facts.2.1, passed block facts.2.2⟩
  results := by
    intro id member
    obtain ⟨block, inside, same, vouch⟩ := sound.results id member
    exact ⟨block, inside, same, vouched block inside vouch⟩

/-- The invariant of runs that keep the blocks at risk. -/
structure Accountable (bc : Blockchain) : Prop where
  only : OnlyVerified bc
  keys : ∀ id block, bc.blocks.lookup id = some block → block.id = id ∧ block.ref < bc.nextRef
  pending : ∀ id block, bc.pendingBlocks.lookup id = some block →
    bc.blocks.lookup id = some block
  accepted : ∀ id block, bc.acceptedBlocks.lookup id = some block →
    bc.blocks.lookup id = some block
  passes : ∀ pass running, bc.passes.lookup pass = some running → PassSound bc running

/-- A verified block of a running pass and an accepted block are stored under their IDs. -/
theorem Accountable.atRisk_stored {bc : Blockchain} (accountable : Accountable bc) {block : Block}
    (atRisk : AtRisk bc block) : bc.blocks.lookup block.id = some block := by
  rcases atRisk with accepted | ⟨pass, running, found, member, verified⟩
  · exact accountable.accepted block.id block accepted
  · exact (accountable.passes pass running found).stored block member verified

/-- Storing a fresh block whose ID no block at risk has keeps the invariant. -/
theorem storeBlock_accountable (block : Block) (bc : Blockchain) (accountable : Accountable bc)
    (fresh : block.ref = bc.nextRef) (safe : ∀ other, AtRisk bc other → other.id ≠ block.id) :
    Accountable (storeBlock block bc) := by
  have distinct : ∀ id other, bc.blocks.lookup id = some other → other ≠ block := by
    rintro id other stored rfl
    have older := (accountable.keys id other stored).2
    omega
  have vouched : ∀ id other, bc.blocks.lookup id = some other → Vouched bc other →
      Vouched (storeBlock block bc) other := by
    intro id other stored vouch
    refine ⟨vouch.verified, vouch.passed, ?_⟩
    simp only [storeBlock]
    rw [Function.update_of_ne (distinct id other stored)]
    exact vouch.status
  have notReplaced : ∀ other, AtRisk bc other →
      (storeBlock block bc).blocks.lookup other.id = some other := by
    intro other atRisk
    simp only [storeBlock]
    rw [Finmap.lookup_insert_of_ne bc.blocks (safe other atRisk)]
    exact accountable.atRisk_stored atRisk
  have acceptedAtRisk : ∀ id other, bc.acceptedBlocks.lookup id = some other →
      other.id = id ∧ AtRisk bc other := by
    intro id other found
    have key := (accountable.keys id other (accountable.accepted id other found)).1
    exact ⟨key, Or.inl (by rw [key]; exact found)⟩
  have unaccepted : block.id ∉ bc.acceptedBlocks := by
    intro member
    obtain ⟨other, found⟩ := Finmap.mem_iff.mp member
    obtain ⟨key, atRisk⟩ := acceptedAtRisk block.id other found
    exact safe other atRisk key
  refine ⟨⟨?_, ?_, ?_⟩, ?_, ?_, ?_, ?_⟩
  · intro id other found
    have stored := accountable.accepted id other found
    exact (accountable.only.vouched id other found).imp_right (vouched id other stored)
  · intro id member pending
    rcases Finmap.mem_insert.mp pending with same | earlier
    · exact unaccepted (same ▸ member)
    · exact accountable.only.disjoint id member earlier
  · intro id
    simp only [storeBlock, Finmap.mem_insert, accountable.only.union id]
    tauto
  · exact storeBlock_blocksKeyed fresh accountable.keys
  · exact storeBlock_pendingStored block accountable.pending
  · intro id other found
    obtain ⟨key, atRisk⟩ := acceptedAtRisk id other found
    rw [← key]
    exact notReplaced other atRisk
  · intro pass running found
    have sound := accountable.passes pass running found
    refine sound.mono ?_ (fun _ member => member) ?_
    · intro other member verified
      exact notReplaced other (Or.inr ⟨pass, running, found, member, verified⟩)
    · intro other member vouch
      exact vouched other.id other (sound.stored other member vouch.verified) vouch

/-- Creating a block keeps every acceptance accounted for, unless it replaces a block at risk. -/
theorem createBlock_accountable (sha256 : List UInt8 → ID) (order : IterationOrder ID)
    (parentIDs : List ID) (maxTxs now : ℤ) (bc : Blockchain)
    (guarded : KeepsAtRisk sha256 bc (.createBlock order parentIDs maxTxs now))
    (accountable : Accountable bc) :
    Accountable (createBlock sha256 order parentIDs maxTxs now bc).1 := by
  rcases createBlock_cases sha256 order parentIDs maxTxs now bc with
    ⟨_, same, _⟩ | ⟨builds, after⟩
  · rw [same]
    exact accountable
  · rw [after]
    refine storeBlock_accountable _ bc accountable rfl ?_
    intro other atRisk sameID
    obtain ⟨ownID, noTwin⟩ := guarded builds other atRisk
    exact noTwin ((headerBytes_eq_iff _ _ _ _ _ _).mp (ownID sameID))

/-- Submitting a block keeps the invariant, whatever the block is. -/
theorem submitBlock_accountable (block : Block) (bc : Blockchain) (accountable : Accountable bc) :
    Accountable (submitBlock block bc) := by
  have vouched : ∀ other, Vouched bc other → Vouched (submitBlock block bc) other :=
    fun _ vouch => ⟨vouch.verified, vouch.passed, vouch.status⟩
  have onlyVouched : ∀ id other, bc.acceptedBlocks.lookup id = some other →
      other = bc.genesisBlock ∨ Vouched (submitBlock block bc) other :=
    fun id other found => (accountable.only.vouched id other found).imp_right (vouched other)
  by_cases known : block.id ∈ bc.blocks
  · have sameBlocks : (submitBlock block bc).blocks = bc.blocks := by simp [submitBlock, known]
    have samePending : (submitBlock block bc).pendingBlocks = bc.pendingBlocks := by
      simp [submitBlock, known]
    refine ⟨⟨onlyVouched, ?_, ?_⟩, ?_, ?_, ?_, ?_⟩
    · rw [samePending]
      exact accountable.only.disjoint
    · rw [sameBlocks, samePending]
      exact accountable.only.union
    · exact submitBlock_blocksKeyed block accountable.keys
    · exact submitBlock_pendingStored block accountable.pending
    · rw [sameBlocks]
      exact accountable.accepted
    · intro pass running found
      have sound := accountable.passes pass running found
      refine sound.mono ?_ (fun _ member => member) (fun other _ => vouched other)
      rw [sameBlocks]
      exact sound.stored
  · have newBlocks : (submitBlock block bc).blocks = bc.blocks.insert block.id block := by
      simp [submitBlock, known]
    have newPending : (submitBlock block bc).pendingBlocks =
        bc.pendingBlocks.insert block.id block := by simp [submitBlock, known]
    have different : ∀ id other, bc.blocks.lookup id = some other → id ≠ block.id := by
      rintro id other found rfl
      exact known (Finmap.mem_of_lookup_eq_some found)
    have stays : ∀ id other, bc.blocks.lookup id = some other →
        (submitBlock block bc).blocks.lookup id = some other := by
      intro id other found
      rw [newBlocks, Finmap.lookup_insert_of_ne bc.blocks (different id other found)]
      exact found
    refine ⟨⟨onlyVouched, ?_, ?_⟩, ?_, ?_, ?_, ?_⟩
    · intro id member pending
      rw [newPending, Finmap.mem_insert] at pending
      rcases pending with rfl | earlier
      · exact known ((accountable.only.union block.id).mpr (Or.inl member))
      · exact accountable.only.disjoint id member earlier
    · intro id
      rw [newBlocks, newPending, Finmap.mem_insert, Finmap.mem_insert, accountable.only.union id]
      exact or_left_comm
    · exact submitBlock_blocksKeyed block accountable.keys
    · exact submitBlock_pendingStored block accountable.pending
    · intro id other found
      exact stays id other (accountable.accepted id other found)
    · intro pass running found
      have sound := accountable.passes pass running found
      refine sound.mono ?_ (fun _ member => member) (fun other _ => vouched other)
      intro other member verified
      exact stays other.id other (sound.stored other member verified)

/-- The stored blocks and their statuses are as before; only passes may differ. -/
structure SameLedger (bc after : Blockchain) : Prop where
  store : SameStore bc after
  acceptedBlocks : after.acceptedBlocks = bc.acceptedBlocks
  pendingBlocks : after.pendingBlocks = bc.pendingBlocks
  passed : ∀ block ∈ bc.passed, block ∈ after.passed
  status : ∀ block, bc.blockStatus block = .accepted → after.blockStatus block = .accepted

/-- A block that is vouched for stays so as long as the ledger is the same. -/
theorem SameLedger.vouched {bc after : Blockchain} (same : SameLedger bc after) {block : Block}
    (vouch : Vouched bc block) : Vouched after block :=
  ⟨vouch.verified, same.passed block vouch.passed, same.status block vouch.status⟩

/-- A sound pass stays sound as long as the ledger is the same. -/
theorem SameLedger.passSound {bc after : Blockchain} (same : SameLedger bc after) {running : Pass}
    (sound : PassSound bc running) : PassSound after running := by
  refine sound.mono ?_ same.passed (fun _ _ vouch => same.vouched vouch)
  rw [same.store.blocks]
  exact sound.stored

/-- Steps of passes keep the invariant when the pass they update stays sound. -/
theorem SameLedger.accountable {bc after : Blockchain} (same : SameLedger bc after)
    (accountable : Accountable bc)
    (passes : ∀ pass running, after.passes.lookup pass = some running →
      bc.passes.lookup pass = some running ∨ PassSound after running) : Accountable after := by
  refine ⟨⟨?_, ?_, ?_⟩, ?_, ?_, ?_, ?_⟩
  · intro id block found
    rw [same.acceptedBlocks] at found
    rw [same.store.genesisBlock]
    exact (accountable.only.vouched id block found).imp_right same.vouched
  · rw [same.acceptedBlocks, same.pendingBlocks]
    exact accountable.only.disjoint
  · rw [same.acceptedBlocks, same.pendingBlocks, same.store.blocks]
    exact accountable.only.union
  · rw [same.store.blocks, same.store.nextRef]
    exact accountable.keys
  · rw [same.pendingBlocks, same.store.blocks]
    exact accountable.pending
  · rw [same.acceptedBlocks, same.store.blocks]
    exact accountable.accepted
  · intro pass running found
    rcases passes pass running found with earlier | sound
    · exact same.passSound (accountable.passes pass running earlier)
    · exact sound

/-- A step that updates one pass keeps the invariant when the updated pass is sound. -/
theorem SameLedger.accountable_update {bc after : Blockchain} (same : SameLedger bc after)
    (accountable : Accountable bc) {pass : ℕ} {updated : Pass}
    (passes : after.passes = bc.passes.insert pass updated) (sound : PassSound after updated) :
    Accountable after := by
  apply same.accountable accountable
  intro other running found
  rw [passes] at found
  obtain ⟨_, rfl⟩ | ⟨_, earlier⟩ := lookup_insert_cases found
  · exact Or.inr sound
  · exact Or.inl earlier

/-- Starting a pass keeps every acceptance accounted for. -/
theorem snapshotPending_accountable (order : IterationOrder ID) (pass : ℕ) (bc : Blockchain)
    (accountable : Accountable bc) : Accountable (snapshotPending order pass bc) := by
  by_cases busy : pass ∈ bc.passes
  · simp only [snapshotPending, busy, if_true]
    exact accountable
  · let pending := (order.arrange bc.pendingBlocks.keys).filterMap bc.pendingBlocks.lookup
    have after : snapshotPending order pass bc =
        { bc with passes := bc.passes.insert pass ⟨pending, pending, [], []⟩ } := by
      simp only [snapshotPending, busy, if_false, pending]
    have same : SameLedger bc (snapshotPending order pass bc) := by
      rw [after]
      exact ⟨⟨rfl, rfl, rfl, rfl⟩, rfl, rfl, fun _ member => member, fun _ status => status⟩
    apply same.accountable_update accountable (by rw [after])
    refine ⟨?_, fun _ member => member, by simp, by simp⟩
    intro block member _
    obtain ⟨id, _, here⟩ := List.mem_filterMap.mp member
    have stored := accountable.pending id block here
    rw [same.store.blocks, (accountable.keys id block stored).1]
    exact stored

/-- So does a worker that verifies its block. -/
theorem verifyWorker_accountable (pass index : ℕ) (bc : Blockchain)
    (accountable : Accountable bc) : Accountable (verifyWorker pass index bc) := by
  rcases verifyWorker_cases pass index bc with
    idle | ⟨running, block, found, here, ⟨error, verdict, after⟩ | ⟨verdict, after⟩⟩
  · rw [idle]
    exact accountable
  · rw [after]
    have sound := accountable.passes pass running found
    have same : SameLedger bc { bc with passes := bc.passes.insert pass { running with
        waiting := running.waiting.eraseIdx index
        results := running.results ++ [(block.id, some error)] } } :=
      ⟨⟨rfl, rfl, rfl, rfl⟩, rfl, rfl, fun _ member => member, fun _ status => status⟩
    have kept := same.passSound sound
    apply same.accountable_update accountable rfl
    refine ⟨kept.stored, fun waiting left => kept.waiting waiting (List.mem_of_mem_eraseIdx left),
      kept.verified, ?_⟩
    intro id delivered
    exact kept.results id (by simpa using delivered)
  · rw [after]
    have sound := accountable.passes pass running found
    have same : SameLedger bc { bc with
        passes := bc.passes.insert pass { running with
          waiting := running.waiting.eraseIdx index
          verified := running.verified ++ [block] }
        passed := block :: bc.passed } :=
      ⟨⟨rfl, rfl, rfl, rfl⟩, rfl, rfl, fun _ member => List.mem_cons_of_mem block member,
        fun _ status => status⟩
    have kept := same.passSound sound
    apply same.accountable_update accountable rfl
    refine ⟨kept.stored, fun waiting left => kept.waiting waiting (List.mem_of_mem_eraseIdx left),
      ?_, kept.results⟩
    intro verified inside
    rcases List.mem_append.mp inside with earlier | new
    · exact kept.verified verified earlier
    · rw [List.mem_singleton.mp new]
      exact ⟨sound.waiting block (List.mem_of_getElem? here), verdict, List.mem_cons_self⟩

/-- So does a worker that accepts its block. -/
theorem acceptWorker_accountable (pass index : ℕ) (bc : Blockchain)
    (accountable : Accountable bc) : Accountable (acceptWorker pass index bc) := by
  rcases acceptWorker_cases pass index bc with idle | ⟨running, block, found, here, after⟩
  · rw [idle]
    exact accountable
  · have sound := accountable.passes pass running found
    obtain ⟨inside, verdict, passed⟩ := sound.verified block (List.mem_of_getElem? here)
    have same : SameLedger bc (acceptWorker pass index bc) := by
      rw [after]
      refine ⟨⟨rfl, rfl, rfl, rfl⟩, rfl, rfl, fun _ member => member, ?_⟩
      intro other status
      by_cases equal : other = block
      · subst equal
        exact Function.update_self ..
      · exact (Function.update_of_ne equal ..).trans status
    have kept := same.passSound sound
    apply same.accountable_update accountable (by rw [after])
    refine ⟨kept.stored, kept.waiting,
      fun verified left => kept.verified verified (List.mem_of_mem_eraseIdx left), ?_⟩
    intro id delivered
    rcases List.mem_append.mp delivered with earlier | new
    · exact kept.results id earlier
    · have named : id = block.id := by simpa using new
      refine ⟨block, inside, named.symm, verdict, same.passed block passed, ?_⟩
      rw [after]
      exact Function.update_self ..

/-- Marking the stored block of a vouched result as accepted keeps the invariant. -/
theorem collectResult_accountable (result : ID × Option TransactionError) (bc : Blockchain)
    (accountable : Accountable bc)
    (vouched : result.2 = none → ∃ block, bc.blocks.lookup result.1 = some block ∧
      Vouched bc block) : Accountable (collectResult result bc).1 := by
  unfold collectResult
  cases delivered : result.2 with
  | some error => exact accountable
  | none =>
    obtain ⟨block, stored, vouch⟩ := vouched delivered
    simp only [stored]
    have present : result.1 ∈ bc.blocks := Finmap.mem_of_lookup_eq_some stored
    have keepsVouched : ∀ other, Vouched bc other → Vouched { bc with
        acceptedBlocks := bc.acceptedBlocks.insert result.1 block
        pendingBlocks := bc.pendingBlocks.erase result.1 } other :=
      fun _ vouch => ⟨vouch.verified, vouch.passed, vouch.status⟩
    refine ⟨⟨?_, ?_, ?_⟩, accountable.keys, ?_, ?_, ?_⟩
    · intro id other found
      obtain ⟨_, rfl⟩ | ⟨_, earlier⟩ := lookup_insert_cases found
      · exact Or.inr (keepsVouched block vouch)
      · exact (accountable.only.vouched id other earlier).imp_right (keepsVouched other)
    · intro id member pending
      obtain ⟨different, stillPending⟩ := Finmap.mem_erase.mp pending
      have already := (Finmap.mem_insert.mp member).resolve_left different
      exact accountable.only.disjoint id already stillPending
    · intro id
      rw [Finmap.mem_insert, Finmap.mem_erase, accountable.only.union id]
      by_cases same : id = result.1
      · subst same
        simpa using (accountable.only.union result.1).mp present
      · simp [same]
    · intro id other found
      exact accountable.pending id other (lookup_erase_some found).2
    · intro id other found
      obtain ⟨rfl, rfl⟩ | ⟨_, earlier⟩ := lookup_insert_cases found
      · exact stored
      · exact accountable.accepted id other earlier
    · intro pass running found
      have sound := accountable.passes pass running found
      exact sound.mono sound.stored (fun _ member => member) (fun other _ => keepsVouched other)

/-- Collecting a result changes neither the stored blocks nor what vouches for them. -/
theorem collectResult_objects (result : ID × Option TransactionError) (bc : Blockchain) :
    (collectResult result bc).1.blocks = bc.blocks ∧
      (collectResult result bc).1.passed = bc.passed ∧
      (collectResult result bc).1.blockStatus = bc.blockStatus := by
  unfold collectResult
  split
  · exact ⟨rfl, rfl, rfl⟩
  · split <;> exact ⟨rfl, rfl, rfl⟩

/-- The collection loop of a sound pass keeps the invariant. -/
theorem collectLoop_accountable (running : Pass) (bc : Blockchain) (accountable : Accountable bc)
    (sound : PassSound bc running) :
    Accountable (forRange (fun _ => collectResult) running.results bc).1 := by
  refine (forRange_preserves (fun state => Accountable state ∧ state.blocks = bc.blocks ∧
    state.passed = bc.passed ∧ state.blockStatus = bc.blockStatus) ?_
    ⟨accountable, rfl, rfl, rfl⟩).1
  rintro _ result member state ⟨before, blocks, passed, status⟩
  have objects := collectResult_objects result state
  refine ⟨collectResult_accountable result state before ?_, objects.1.trans blocks,
    objects.2.1.trans passed, objects.2.2.trans status⟩
  intro delivered
  have listed : (result.1, none) ∈ running.results := by
    rw [← delivered]
    exact member
  obtain ⟨block, inside, named, vouch⟩ := sound.results result.1 listed
  refine ⟨block, ?_, vouch.verified, passed ▸ vouch.passed, status ▸ vouch.status⟩
  rw [blocks, ← named]
  exact sound.stored block inside vouch.verified

/-- Collecting the results accepts blocks that a pass has vouched for. -/
theorem collectResults_accountable (pass : ℕ) (bc : Blockchain) (accountable : Accountable bc) :
    Accountable (collectResults pass bc) := by
  unfold collectResults
  cases found : bc.passes.lookup pass with
  | none => exact accountable
  | some running =>
    by_cases finished : running.waiting = [] ∧ running.verified = []
    · simp only [finished, and_self, if_true]
      have loop := collectLoop_accountable running bc accountable
        (accountable.passes pass running found)
      generalize (forRange (fun _ => collectResult) running.results bc).1 = collected at loop ⊢
      have same : SameLedger collected { collected with passes := collected.passes.erase pass } :=
        ⟨⟨rfl, rfl, rfl, rfl⟩, rfl, rfl, fun _ member => member, fun _ status => status⟩
      apply same.accountable loop
      intro other still here
      exact Or.inl (lookup_erase_some here).2
    · simp only [finished, if_false]
      exact accountable

/-- Adding a transaction accepts nothing. -/
theorem addTransaction_accountable (tx : Transaction) (bc : Blockchain)
    (accountable : Accountable bc) : Accountable (addTransaction tx bc).1 := by
  rcases addTransaction_cases tx bc with ⟨_, idle⟩ | ⟨_, _, _, after⟩
  · rw [idle]
    exact accountable
  · rw [after]
    have vouched : ∀ block, Vouched bc block →
        Vouched { bc with txPool := bc.txPool.insert tx.id tx } block :=
      fun _ vouch => ⟨vouch.verified, vouch.passed, vouch.status⟩
    refine ⟨⟨?_, accountable.only.disjoint, accountable.only.union⟩, accountable.keys,
      accountable.pending, accountable.accepted, ?_⟩
    · intro id block found
      exact (accountable.only.vouched id block found).imp_right (vouched block)
    · intro pass running found
      have sound := accountable.passes pass running found
      exact sound.mono sound.stored (fun _ member => member) (fun block _ => vouched block)

/-- A guarded step keeps the invariant. -/
theorem step_accountable (sha256 : List UInt8 → ID) (bc : Blockchain) (action : Action)
    (guarded : KeepsAtRisk sha256 bc action) (accountable : Accountable bc) :
    Accountable (step sha256 bc action) := by
  cases action with
  | addTransaction tx => exact addTransaction_accountable tx bc accountable
  | createBlock order parentIDs maxTxs now =>
    exact createBlock_accountable sha256 order parentIDs maxTxs now bc guarded accountable
  | submitBlock block => exact submitBlock_accountable block bc accountable
  | snapshot order pass => exact snapshotPending_accountable order pass bc accountable
  | verify pass index => exact verifyWorker_accountable pass index bc accountable
  | accept pass index => exact acceptWorker_accountable pass index bc accountable
  | collect pass => exact collectResults_accountable pass bc accountable

/-- The new chain has accepted the genesis block only. -/
theorem newBlockchain_accountable (sha256 : List UInt8 → ID) (now : ℤ) :
    Accountable (newBlockchain sha256 now) := by
  have keyed := newBlockchain_keyed sha256 now
  refine ⟨⟨?_, ?_, ?_⟩, keyed.blocks, keyed.pending, fun _ _ found => found, ?_⟩
  · intro id block found
    exact Or.inl (newBlockchain_blocks found).2
  · intro id _ pending
    exact absurd pending Finmap.notMem_empty
  · intro id
    exact ⟨Or.inl, fun either => either.resolve_right Finmap.notMem_empty⟩
  · intro pass running found
    simp [newBlockchain] at found

/-- In every run in which `CreateBlock` builds no twin of a block at risk, accepted
blocks have passed `Verify`, and every stored ID is either accepted or pending. -/
theorem accepted_blocks_verified (sha256 : List UInt8 → ID) (now : ℤ) (actions : List Action)
    (guarded : Runs.Along (step sha256) (KeepsAtRisk sha256) (newBlockchain sha256 now) actions) :
    OnlyVerified (runChain sha256 now actions) :=
  (guarded.invariant (step sha256) Accountable (step_accountable sha256)
    (newBlockchain_accountable sha256 now)).only

/-- A pass verifies and accepts the block of the first transaction; before its results
are collected, `parentID` gets a block with the second transaction. -/
def passRun (parentID : ID) : List Action :=
  [.addTransaction (sampleTx 1), createOne genesisID, .snapshot (byValue 32) 0, .verify 0 0,
    .accept 0 0, .addTransaction (sampleTx 2), createOne parentID, .collect 0]

/-- The block that replaces the verified one when it gets the same parent. -/
def replacement : Block :=
  ⟨2, positionalHash (headerBytes 1 [genesisID] 1), [genesisID], 1, 0, [sampleTx 2]⟩

/-- The replacement is accepted although it was never verified and is still processing. -/
theorem replaced_block_accepted_unverified :
    (runChain positionalHash 0 (passRun genesisID)).acceptedBlocks.lookup replacement.id =
        some replacement ∧
      ¬ OnlyVerified (runChain positionalHash 0 (passRun genesisID)) := by
  have accepted : (runChain positionalHash 0 (passRun genesisID)).acceptedBlocks.lookup
      replacement.id = some replacement := by decide +kernel
  refine ⟨accepted, ?_⟩
  intro only
  rcases only.vouched replacement.id replacement accepted with genesis | vouch
  · exact absurd genesis (by decide +kernel)
  · exact absurd vouch.status (by decide +kernel)

/-- The blocks at risk can be checked one by one against the block about to be built. -/
theorem keepsAtRisk_of_no_twin (sha256 : List UInt8 → ID) (order : IterationOrder ID)
    (parentIDs : List ID) (maxTxs now : ℤ) (bc : Blockchain)
    (accepted : ∀ id ∈ bc.acceptedBlocks.keys, ((bc.acceptedBlocks.lookup id).all fun block =>
      decide (block.OwnID sha256 order parentIDs maxTxs now bc) &&
        !decide (block.Twin order parentIDs maxTxs bc)) = true)
    (running : ∀ pass ∈ bc.passes.keys, ((bc.passes.lookup pass).all fun running =>
      running.snapshot.all fun block =>
        decide (block.OwnID sha256 order parentIDs maxTxs now bc) &&
          !decide (block.Twin order parentIDs maxTxs bc)) = true) :
    KeepsAtRisk sha256 bc (.createBlock order parentIDs maxTxs now) := by
  rintro _ block (found | ⟨pass, active, found, member, _⟩)
  · have here := accepted block.id (Finmap.mem_keys.mpr (Finmap.mem_of_lookup_eq_some found))
    rw [found] at here
    simpa using here
  · have here := running pass (Finmap.mem_keys.mpr (Finmap.mem_of_lookup_eq_some found))
    rw [found] at here
    simpa using List.all_eq_true.mp here block member

/-- With the second block on top of the first, the verified block itself is accepted. -/
theorem stacked_pass_only_verified :
    OnlyVerified (runChain positionalHash 0 (passRun replacement.id)) := by
  refine accepted_blocks_verified positionalHash 0 (passRun replacement.id)
    ⟨trivial, ?_, trivial, trivial, trivial, trivial, ?_, trivial, trivial⟩
  · exact keepsAtRisk_of_no_twin _ _ _ _ _ _ (by decide +kernel) (by decide +kernel)
  · exact keepsAtRisk_of_no_twin _ _ _ _ _ _ (by decide +kernel) (by decide +kernel)

end AvalancheParallel.Chain
