import AvalancheParallel.Chain.Identity
import AvalancheParallel.Chain.PassLaws

/-!
# Double spends

The nonce of a sender is to be spent once. Neither the pool nor `Verify` nor
`ProcessPendingBlocks` compares a transaction with others, and a worker accepts
all transactions of its block. Once a pass has begun, the transactions of its
blocks that pass `Verify` are therefore as good as accepted: they are engaged.
No two rivals are accepted as long as no pass begins
that engages a rival of an engaged transaction.
-/

namespace AvalancheParallel.Chain

open AvalancheParallel.RangeLoop AvalancheParallel.Ids AvalancheParallel.Choices

/-- Different transactions with the same sender and the same nonce. -/
def Transaction.Rivals (tx other : Transaction) : Prop :=
  tx.sender = other.sender ∧ tx.nonce = other.nonce ∧
    (tx.id ≠ other.id ∨ tx.recipient ≠ other.recipient ∨ tx.amount ≠ other.amount)

instance (tx other : Transaction) : Decidable (tx.Rivals other) :=
  inferInstanceAs (Decidable (_ ∧ _ ∧ _))

/-- Rivalry is mutual. -/
theorem Transaction.Rivals.symm {tx other : Transaction} (rivals : tx.Rivals other) :
    other.Rivals tx :=
  ⟨rivals.1.symm, rivals.2.1.symm,
    rivals.2.2.imp Ne.symm (fun either => either.imp Ne.symm Ne.symm)⟩

/-- No two rivals are accepted. -/
def NoDoubleSpend (bc : Blockchain) : Prop :=
  ∀ tx other, bc.txStatus tx = .accepted → bc.txStatus other = .accepted → ¬ tx.Rivals other

/-- The transaction is in one of the blocks, which passes `Verify`. -/
def InVerifying (blocks : List Block) (tx : Transaction) : Prop :=
  ∃ block ∈ blocks, block.verify = none ∧ tx ∈ block.transactions

/-- The transaction is accepted, or a running pass is about to accept it. -/
def Engaged (bc : Blockchain) (tx : Transaction) : Prop :=
  bc.txStatus tx = .accepted ∨
    ∃ pass running, bc.passes.lookup pass = some running ∧ InVerifying running.snapshot tx

/-- When a pass begins, no transaction of a pending block that passes `Verify` has a rival
among these transactions or among the engaged ones. -/
def SpendsOnce (bc : Blockchain) : Action → Prop
  | .snapshot order pass => pass ∉ bc.passes →
      ∀ tx, InVerifying (order.values bc.pendingBlocks) tx →
        ∀ other, InVerifying (order.values bc.pendingBlocks) other ∨ Engaged bc other →
          ¬ tx.Rivals other
  | _ => True

/-- No two rivals are engaged. -/
def NoRivalsEngaged (bc : Blockchain) : Prop :=
  ∀ tx other, Engaged bc tx → Engaged bc other → ¬ tx.Rivals other

/-- `Accept` on a block changes the statuses of its transactions only. -/
theorem accept_txStatus (transactions : List Transaction) (status : Transaction → Status)
    (tx : Transaction) :
    transactions.foldl (fun status tx => Function.update status tx .accepted) status tx =
      if tx ∈ transactions then .accepted else status tx := by
  induction transactions generalizing status with
  | nil => simp
  | cons first rest inductionHypothesis =>
    rw [List.foldl_cons, inductionHypothesis]
    by_cases same : tx = first
    · subst same
      simp
    · simp [same]

/-- Collecting a result decides no transaction. -/
theorem collectResult_txStatus (result : ID × Option TransactionError) (bc : Blockchain) :
    (collectResult result bc).1.txStatus = bc.txStatus := by
  unfold collectResult
  split
  · rfl
  · split <;> rfl

/-- A transaction becomes accepted only as part of a verified block of a running pass. -/
theorem step_txStatus (sha256 : List UInt8 → ID) (bc : Blockchain) (action : Action)
    (tx : Transaction) (accepted : (step sha256 bc action).txStatus tx = .accepted) :
    bc.txStatus tx = .accepted ∨
      ∃ pass running block, bc.passes.lookup pass = some running ∧ block ∈ running.verified ∧
        tx ∈ block.transactions := by
  cases action with
  | addTransaction added =>
    rcases addTransaction_cases added bc with ⟨_, idle⟩ | ⟨_, _, _, after⟩
    · simp only [step, idle] at accepted
      exact Or.inl accepted
    · simp only [step, after] at accepted
      exact Or.inl accepted
  | createBlock order parentIDs maxTxs now =>
    rcases createBlock_cases sha256 order parentIDs maxTxs now bc with ⟨_, same, _⟩ | ⟨_, after⟩
    · simp only [step, same] at accepted
      exact Or.inl accepted
    · simp only [step, after, storeBlock] at accepted
      exact Or.inl accepted
  | submitBlock block => exact Or.inl accepted
  | snapshot order pass =>
    rcases snapshotPending_cases order pass bc with ⟨_, idle⟩ | ⟨_, after⟩
    · simp only [step, idle] at accepted
      exact Or.inl accepted
    · simp only [step, after] at accepted
      exact Or.inl accepted
  | verify pass index =>
    rcases verifyWorker_cases pass index bc with
      idle | ⟨_, _, _, _, ⟨_, _, after⟩ | ⟨_, after⟩⟩
    · simp only [step, idle] at accepted
      exact Or.inl accepted
    · simp only [step, after] at accepted
      exact Or.inl accepted
    · simp only [step, after] at accepted
      exact Or.inl accepted
  | accept pass index =>
    rcases acceptWorker_cases pass index bc with idle | ⟨running, block, found, here, after⟩
    · simp only [step, idle] at accepted
      exact Or.inl accepted
    · simp only [step, after, accept_txStatus] at accepted
      split at accepted
      · rename_i inside
        exact Or.inr ⟨pass, running, block, found, List.mem_of_getElem? here, inside⟩
      · exact Or.inl accepted
  | collect pass =>
    rcases collectResults_cases pass bc with idle | ⟨running, _, _, _, after⟩
    · simp only [step, idle] at accepted
      exact Or.inl accepted
    · have status : (forRange (fun _ => collectResult) running.results bc).1.txStatus =
          bc.txStatus :=
        forRange_preserves (fun state => state.txStatus = bc.txStatus)
          (fun _ result _ state before => (collectResult_txStatus result state).trans before) rfl
      simp only [step, after, status] at accepted
      exact Or.inl accepted

/-- After a step the engaged transactions are those engaged before and those of a pass that
the step begins. -/
theorem step_engaged (sha256 : List UInt8 → ID) (bc : Blockchain) (action : Action)
    (consistent : PassesConsistent bc) (tx : Transaction)
    (engaged : Engaged (step sha256 bc action) tx) :
    Engaged bc tx ∨ ∃ order pass, action = .snapshot order pass ∧ pass ∉ bc.passes ∧
      InVerifying (order.values bc.pendingBlocks) tx := by
  rcases engaged with accepted | ⟨pass, running, found, block, inside, verified, member⟩
  · rcases step_txStatus sha256 bc action tx accepted with
      before | ⟨pass, running, block, found, ready, member⟩
    · exact Or.inl (Or.inl before)
    · obtain ⟨inside, verified⟩ := (consistent pass running found).verified block ready
      exact Or.inl (Or.inr ⟨pass, running, found, block, inside, verified, member⟩)
  · rcases step_passes sha256 bc action pass running found with
      earlier | ⟨order, taken, free, rfl⟩ | ⟨before, known, advance⟩
    · exact Or.inl (Or.inr ⟨pass, running, earlier, block, inside, verified, member⟩)
    · exact Or.inr ⟨order, pass, taken, free, block, inside, verified, member⟩
    · rw [advance.snapshot] at inside
      exact Or.inl (Or.inr ⟨pass, before, known, block, inside, verified, member⟩)

/-- A guarded step engages no rivals. -/
theorem step_noRivalsEngaged (sha256 : List UInt8 → ID) (bc : Blockchain) (action : Action)
    (guarded : SpendsOnce bc action) (consistent : PassesConsistent bc)
    (apart : NoRivalsEngaged bc) : NoRivalsEngaged (step sha256 bc action) := by
  intro tx other engaged otherEngaged rivals
  rcases step_engaged sha256 bc action consistent tx engaged with
    before | ⟨order, pass, rfl, free, new⟩
  · rcases step_engaged sha256 bc action consistent other otherEngaged with
      otherBefore | ⟨order, pass, rfl, free, otherNew⟩
    · exact apart tx other before otherBefore rivals
    · exact guarded free other otherNew tx (Or.inr before) rivals.symm
  · rcases step_engaged sha256 bc _ consistent other otherEngaged with
      otherBefore | ⟨_, _, same, _, otherNew⟩
    · exact guarded free tx new other (Or.inr otherBefore) rivals
    · cases same
      exact guarded free tx new other (Or.inl otherNew) rivals

/-- In every run in which no pass begins with rivals, no two rivals are accepted in any
state. -/
theorem no_double_spend (sha256 : List UInt8 → ID) (now : ℤ) (actions : List Action)
    (along : Runs.Along (step sha256) SpendsOnce (newBlockchain sha256 now) actions) :
    Runs.Always (step sha256) NoDoubleSpend (newBlockchain sha256 now) actions := by
  have start : PassesConsistent (newBlockchain sha256 now) ∧
      NoRivalsEngaged (newBlockchain sha256 now) := by
    constructor
    · intro pass running found
      rw [newBlockchain_passes] at found
      cases found
    · rintro tx other (accepted | ⟨pass, running, found, _⟩)
      · cases accepted
      · rw [newBlockchain_passes] at found
        cases found
  have sound := along.always (step sha256) (fun bc => PassesConsistent bc ∧ NoRivalsEngaged bc)
    (fun bc action guarded before => ⟨step_passesConsistent sha256 bc action before.1,
      step_noRivalsEngaged sha256 bc action guarded before.1 before.2⟩) start
  apply sound.imp (step sha256)
  rintro bc ⟨_, apart⟩ tx other accepted otherAccepted
  exact apart tx other (Or.inl accepted) (Or.inl otherAccepted)

/-- A transfer of the same amount with the same nonce to another recipient. -/
def secondSpend : Transaction := newTransaction positionalHash 1 alice charlie 100 1

/-- The blocks that `CreateBlock` makes of the two spends, both on the genesis block. -/
def firstSpendBlock : Block := newBlock positionalHash 1 0 [genesisID] [transfer 0 1] 1

def secondSpendBlock : Block := newBlock positionalHash 2 0 [genesisID] [secondSpend] 2

/-- Each spend is added, put into a block and submitted; then one pass processes both. -/
def doubleSpendRun : List Action :=
  [.addTransaction (transfer 0 1), createOne genesisID, .submitBlock firstSpendBlock,
    .addTransaction secondSpend, createOne genesisID, .submitBlock secondSpendBlock,
    .snapshot (byValue 32) 0, .verify 0 0, .verify 0 0, .accept 0 0, .accept 0 0, .collect 0]

/-- Both spends are accepted. -/
theorem both_spends_accepted :
    let bc := runChain positionalHash 0 doubleSpendRun
    bc.blocks.lookup firstSpendBlock.id = some firstSpendBlock ∧
      bc.blocks.lookup secondSpendBlock.id = some secondSpendBlock ∧
      (transfer 0 1).Rivals secondSpend ∧ ¬ NoDoubleSpend bc := by
  intro bc
  have first : bc.txStatus (transfer 0 1) = .accepted := by decide +kernel
  have second : bc.txStatus secondSpend = .accepted := by decide +kernel
  have rivals : (transfer 0 1).Rivals secondSpend := by decide +kernel
  refine ⟨by decide +kernel, by decide +kernel, rivals, ?_⟩
  intro once
  exact once (transfer 0 1) secondSpend first second rivals

/-- The first pass of a chain only has to be free of rivals among its own blocks. -/
theorem spendsOnce_of_first {bc : Blockchain} {order : IterationOrder ID} {pass : ℕ}
    (undecided : bc.txStatus = fun _ => .processing) (idle : bc.passes.keys = ∅)
    (apart : ∀ block ∈ order.values bc.pendingBlocks, ∀ tx ∈ block.transactions,
      ∀ second ∈ order.values bc.pendingBlocks, ∀ other ∈ second.transactions,
        ¬ tx.Rivals other) :
    SpendsOnce bc (.snapshot order pass) := by
  rintro _ tx ⟨block, inside, _, member⟩ other
    (⟨second, otherInside, _, otherMember⟩ | accepted | ⟨running, _, found, _⟩)
  · exact apart block inside tx member second otherInside other otherMember
  · rw [undecided] at accepted
    cases accepted
  · have listed := Finmap.mem_keys.mpr (Finmap.mem_of_lookup_eq_some found)
    rw [idle] at listed
    cases listed

/-- Transfers with different nonces in two blocks are both accepted. -/
theorem different_nonces_spend_once :
    Runs.Always (step positionalHash) NoDoubleSpend (newBlockchain positionalHash 0)
      [.submitBlock firstSpendBlock,
        .submitBlock (newBlock positionalHash 2 0 [genesisID] [transfer 1 2] 2),
        .snapshot (byValue 32) 0, .verify 0 0, .verify 0 0, .accept 0 0, .accept 0 0,
        .collect 0] := by
  apply no_double_spend
  refine ⟨trivial, trivial, ?_, trivial, trivial, trivial, trivial, trivial, trivial⟩
  exact spendsOnce_of_first rfl (by decide +kernel) (by decide +kernel)

end AvalancheParallel.Chain
