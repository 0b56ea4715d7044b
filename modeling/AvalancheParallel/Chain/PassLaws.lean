import AvalancheParallel.Chain.ChainLaws

/-!
# The passes of `ProcessPendingBlocks`

A pass begins with a snapshot of the pending blocks and is then changed by its
workers only, however the steps of other calls fall between. A block of the
snapshot that passes `Verify` waits, is verified or has delivered its result, so
when the pass is collected exactly these blocks have delivered one. Collecting
marks as accepted what is stored under their IDs at that time.
-/

namespace AvalancheParallel.Chain

open AvalancheParallel.RangeLoop AvalancheParallel.Ids

/-- A pass at its beginning. -/
def startedPass (order : IterationOrder ID) (bc : Blockchain) : Pass :=
  ⟨order.values bc.pendingBlocks, order.values bc.pendingBlocks, [], []⟩

/-- What a worker does to its pass: a failed or passed `Verify`, or `Accept`. -/
inductive Pass.Next (running : Pass) : Pass → Prop where
  | refuse (index : ℕ) (block : Block) (error : TransactionError)
      (here : running.waiting[index]? = some block) (verdict : block.verify = some error) :
      running.Next { running with
        waiting := running.waiting.eraseIdx index
        results := running.results ++ [(block.id, some error)] }
  | verify (index : ℕ) (block : Block)
      (here : running.waiting[index]? = some block) (verdict : block.verify = none) :
      running.Next { running with
        waiting := running.waiting.eraseIdx index
        verified := running.verified ++ [block] }
  | accept (index : ℕ) (block : Block) (here : running.verified[index]? = some block) :
      running.Next { running with
        verified := running.verified.eraseIdx index
        results := running.results ++ [(block.id, none)] }

/-- The snapshot of a pass does not change. -/
theorem Pass.Next.snapshot {running next : Pass} (advance : running.Next next) :
    next.snapshot = running.snapshot := by
  cases advance <;> rfl

/-- The workers of a pass deal with the blocks of its snapshot, and no block that passes
`Verify` gets lost. -/
structure Pass.Consistent (running : Pass) : Prop where
  waiting : ∀ block ∈ running.waiting, block ∈ running.snapshot
  verified : ∀ block ∈ running.verified, block ∈ running.snapshot ∧ block.verify = none
  results : ∀ id, (id, none) ∈ running.results →
    ∃ block ∈ running.snapshot, block.verify = none ∧ block.id = id
  complete : ∀ block ∈ running.snapshot, block.verify = none →
    block ∈ running.waiting ∨ block ∈ running.verified ∨ (block.id, none) ∈ running.results

/-- An element of a list stays when another position is erased. -/
theorem mem_eraseIdx_or_here {α : Type*} {elements : List α} {index : ℕ} {here element : α}
    (found : elements[index]? = some here) (member : element ∈ elements) :
    element = here ∨ element ∈ elements.eraseIdx index := by
  obtain ⟨position, atPosition⟩ := List.mem_iff_getElem?.mp member
  by_cases same : position = index
  · rw [same, found] at atPosition
    exact Or.inl (Option.some.inj atPosition).symm
  · exact Or.inr (List.mem_eraseIdx_iff_getElem?.mpr ⟨position, same, atPosition⟩)

/-- A pass starts consistent. -/
theorem startedPass_consistent (order : IterationOrder ID) (bc : Blockchain) :
    (startedPass order bc).Consistent where
  waiting := fun _ member => member
  verified := by simp [startedPass]
  results := by simp [startedPass]
  complete := fun _ member _ => Or.inl member

/-- A step of a pass keeps it consistent. -/
theorem Pass.Next.consistent {running next : Pass} (advance : running.Next next)
    (before : running.Consistent) : next.Consistent := by
  cases advance with
  | refuse index block error here verdict =>
    constructor
    · intro other left
      exact before.waiting other (List.mem_of_mem_eraseIdx left)
    · exact before.verified
    · intro id delivered
      exact before.results id (by simpa using delivered)
    · intro other inside verified
      rcases before.complete other inside verified with waiting | elsewhere
      · rcases mem_eraseIdx_or_here here waiting with rfl | left
        · rw [verdict] at verified
          cases verified
        · exact Or.inl left
      · exact Or.inr (elsewhere.imp_right (List.mem_append_left _))
  | verify index block here verdict =>
    have inside := before.waiting block (List.mem_of_getElem? here)
    constructor
    · intro other left
      exact before.waiting other (List.mem_of_mem_eraseIdx left)
    · intro other member
      rcases List.mem_append.mp member with earlier | new
      · exact before.verified other earlier
      · rw [List.mem_singleton.mp new]
        exact ⟨inside, verdict⟩
    · exact before.results
    · intro other member verified
      rcases before.complete other member verified with waiting | ready | delivered
      · rcases mem_eraseIdx_or_here here waiting with rfl | left
        · exact Or.inr (Or.inl (List.mem_append_right _ List.mem_cons_self))
        · exact Or.inl left
      · exact Or.inr (Or.inl (List.mem_append_left _ ready))
      · exact Or.inr (Or.inr delivered)
  | accept index block here =>
    obtain ⟨inside, verdict⟩ := before.verified block (List.mem_of_getElem? here)
    constructor
    · exact before.waiting
    · intro other left
      exact before.verified other (List.mem_of_mem_eraseIdx left)
    · intro id delivered
      rcases List.mem_append.mp delivered with earlier | new
      · exact before.results id earlier
      · have named : id = block.id := by simpa using new
        exact ⟨block, inside, verdict, named.symm⟩
    · intro other member verified
      rcases before.complete other member verified with waiting | ready | delivered
      · exact Or.inl waiting
      · rcases mem_eraseIdx_or_here here ready with rfl | left
        · exact Or.inr (Or.inr (List.mem_append_right _ List.mem_cons_self))
        · exact Or.inr (Or.inl left)
      · exact Or.inr (Or.inr (List.mem_append_left _ delivered))

/-- When a pass is collected, exactly the blocks that pass `Verify` have a result. -/
theorem Pass.Consistent.delivered_iff {running : Pass} (consistent : running.Consistent)
    (noneWaiting : running.waiting = []) (noneVerified : running.verified = []) (id : ID) :
    (id, none) ∈ running.results ↔ ∃ block ∈ running.snapshot, block.verify = none ∧
      block.id = id := by
  constructor
  · exact consistent.results id
  · rintro ⟨block, inside, verified, rfl⟩
    rcases consistent.complete block inside verified with waiting | ready | delivered
    · rw [noneWaiting] at waiting
      cases waiting
    · rw [noneVerified] at ready
      cases ready
    · exact delivered

/-- Starting a pass does nothing if the pass is running, and records a new pass otherwise. -/
theorem snapshotPending_cases (order : IterationOrder ID) (pass : ℕ) (bc : Blockchain) :
    (pass ∈ bc.passes ∧ snapshotPending order pass bc = bc) ∨
    (pass ∉ bc.passes ∧ snapshotPending order pass bc =
      { bc with passes := bc.passes.insert pass (startedPass order bc) }) := by
  by_cases busy : pass ∈ bc.passes
  · exact Or.inl ⟨busy, by simp only [snapshotPending, busy, if_true]⟩
  · refine Or.inr ⟨busy, ?_⟩
    simp only [snapshotPending, busy, if_false]
    rfl

/-- Collecting a result leaves the passes. -/
theorem collectResult_passes (result : ID × Option TransactionError) (bc : Blockchain) :
    (collectResult result bc).1.passes = bc.passes := by
  unfold collectResult
  split
  · rfl
  · split <;> rfl

/-- The collection loop accepts what is stored under the delivered IDs. -/
theorem collectLoop_accepted (results : List (ID × Option TransactionError)) (index : ℕ)
    (bc : Blockchain) (stored : ∀ id, (id, none) ∈ results → id ∈ bc.blocks) (id : ID) :
    (forRangeFrom (fun _ => collectResult) index results bc).1.acceptedBlocks.lookup id =
      if (id, none) ∈ results then bc.blocks.lookup id else bc.acceptedBlocks.lookup id := by
  induction results generalizing index bc with
  | nil => simp [forRangeFrom]
  | cons result rest inductionHypothesis =>
    obtain ⟨delivered, verdict⟩ := result
    cases verdict with
    | some error =>
      have idle : collectResult (delivered, some error) bc = (bc, none) := rfl
      have later := inductionHypothesis (index + 1) bc
        (fun other member => stored other (List.mem_cons_of_mem _ member))
      simp only [forRangeFrom, idle, later, List.mem_cons, Prod.mk.injEq, reduceCtorEq, and_false,
        false_or]
    | none =>
      obtain ⟨block, found⟩ := Finmap.mem_iff.mp (stored delivered List.mem_cons_self)
      have after : collectResult (delivered, none) bc =
          ({ bc with
              acceptedBlocks := bc.acceptedBlocks.insert delivered block
              pendingBlocks := bc.pendingBlocks.erase delivered }, none) := by
        simp only [collectResult, found]
      have later := inductionHypothesis (index + 1) { bc with
          acceptedBlocks := bc.acceptedBlocks.insert delivered block
          pendingBlocks := bc.pendingBlocks.erase delivered }
        (fun other member => stored other (List.mem_cons_of_mem _ member))
      simp only [forRangeFrom, after, later, List.mem_cons, Prod.mk.injEq, and_true]
      by_cases same : id = delivered
      · subst same
        simp [found]
      · simp [same, Finmap.lookup_insert_of_ne _ same]

/-- Collecting does nothing, or the pass is finished, leaves, and its loop has run. -/
theorem collectResults_cases (pass : ℕ) (bc : Blockchain) :
    collectResults pass bc = bc ∨
    ∃ running, bc.passes.lookup pass = some running ∧ running.waiting = [] ∧
      running.verified = [] ∧ collectResults pass bc =
        { (forRange (fun _ => collectResult) running.results bc).1 with
          passes := bc.passes.erase pass } := by
  unfold collectResults
  cases found : bc.passes.lookup pass with
  | none => exact Or.inl rfl
  | some running =>
    by_cases finished : running.waiting = [] ∧ running.verified = []
    · have passes : (forRange (fun _ => collectResult) running.results bc).1.passes = bc.passes :=
        forRange_preserves (fun state => state.passes = bc.passes)
          (fun _ result _ state before => (collectResult_passes result state).trans before) rfl
      refine Or.inr ⟨running, rfl, finished.1, finished.2, ?_⟩
      simp only [finished, and_self, if_true, passes]
    · exact Or.inl (by simp only [finished, if_false])

/-- A pass after a step was there before, has just begun, or was advanced by a worker. -/
theorem step_passes (sha256 : List UInt8 → ID) (bc : Blockchain) (action : Action) (pass : ℕ)
    (running : Pass) (found : (step sha256 bc action).passes.lookup pass = some running) :
    bc.passes.lookup pass = some running ∨
    (∃ order, action = .snapshot order pass ∧ pass ∉ bc.passes ∧ running = startedPass order bc) ∨
    (∃ before, bc.passes.lookup pass = some before ∧ before.Next running) := by
  cases action with
  | addTransaction tx =>
    rcases addTransaction_cases tx bc with ⟨_, idle⟩ | ⟨_, _, _, after⟩
    · simp only [step, idle] at found
      exact Or.inl found
    · simp only [step, after] at found
      exact Or.inl found
  | createBlock order parentIDs maxTxs now =>
    rcases createBlock_cases sha256 order parentIDs maxTxs now bc with ⟨_, same, _⟩ | ⟨_, after⟩
    · simp only [step, same] at found
      exact Or.inl found
    · simp only [step, after, storeBlock] at found
      exact Or.inl found
  | submitBlock block => exact Or.inl found
  | snapshot order other =>
    rcases snapshotPending_cases order other bc with ⟨_, idle⟩ | ⟨free, after⟩
    · simp only [step, idle] at found
      exact Or.inl found
    · simp only [step, after] at found
      obtain ⟨rfl, rfl⟩ | ⟨_, earlier⟩ := lookup_insert_cases found
      · exact Or.inr (Or.inl ⟨order, rfl, free, rfl⟩)
      · exact Or.inl earlier
  | verify other index =>
    rcases verifyWorker_cases other index bc with
      idle | ⟨before, block, known, here, ⟨error, verdict, after⟩ | ⟨verdict, after⟩⟩
    · simp only [step, idle] at found
      exact Or.inl found
    · simp only [step, after] at found
      obtain ⟨rfl, rfl⟩ | ⟨_, earlier⟩ := lookup_insert_cases found
      · exact Or.inr (Or.inr ⟨before, known, .refuse index block error here verdict⟩)
      · exact Or.inl earlier
    · simp only [step, after] at found
      obtain ⟨rfl, rfl⟩ | ⟨_, earlier⟩ := lookup_insert_cases found
      · exact Or.inr (Or.inr ⟨before, known, .verify index block here verdict⟩)
      · exact Or.inl earlier
  | accept other index =>
    rcases acceptWorker_cases other index bc with idle | ⟨before, block, known, here, after⟩
    · simp only [step, idle] at found
      exact Or.inl found
    · simp only [step, after] at found
      obtain ⟨rfl, rfl⟩ | ⟨_, earlier⟩ := lookup_insert_cases found
      · exact Or.inr (Or.inr ⟨before, known, .accept index block here⟩)
      · exact Or.inl earlier
  | collect other =>
    rcases collectResults_cases other bc with idle | ⟨_, _, _, _, after⟩
    · simp only [step, idle] at found
      exact Or.inl found
    · simp only [step, after] at found
      exact Or.inl (lookup_erase_some found).2

/-- Every running pass is consistent. -/
def PassesConsistent (bc : Blockchain) : Prop :=
  ∀ pass running, bc.passes.lookup pass = some running → running.Consistent

/-- Every step keeps the passes consistent. -/
theorem step_passesConsistent (sha256 : List UInt8 → ID) (bc : Blockchain) (action : Action)
    (consistent : PassesConsistent bc) : PassesConsistent (step sha256 bc action) := by
  intro pass running found
  rcases step_passes sha256 bc action pass running found with
    earlier | ⟨order, _, _, rfl⟩ | ⟨before, known, advance⟩
  · exact consistent pass running earlier
  · exact startedPass_consistent order bc
  · exact advance.consistent (consistent pass before known)

/-- The new chain has no passes. -/
theorem newBlockchain_passes (sha256 : List UInt8 → ID) (now : ℤ) (pass : ℕ) :
    (newBlockchain sha256 now).passes.lookup pass = none := by
  simp [newBlockchain]

end AvalancheParallel.Chain
