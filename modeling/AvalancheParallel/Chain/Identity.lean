import AvalancheParallel.Chain.ChainLaws

/-!
# What an ID identifies

IDs are hashes of `generateBytes`, so they tell two objects apart only when the
bytes do. The bytes of a block leave out its transactions; blocks with the same
header are one block to every map. The bytes of a transaction join its fields by
dashes, and a dash may also be part of a name: moving the separator from one dash
to another gives a different sender and recipient with the same bytes.
-/

namespace AvalancheParallel.Chain

open AvalancheParallel.Ids AvalancheParallel.SeparatedText

/-- The blocks have the same height, parents and transactions. -/
def Block.SameContent (block other : Block) : Prop :=
  block.height = other.height ∧ block.parentIDs = other.parentIDs ∧
    block.transactions.map Transaction.id = other.transactions.map Transaction.id

/-- The blocks differ in their header, or they list the same transactions. -/
def Block.Distinguished (block other : Block) : Prop :=
  block.height ≠ other.height ∨ block.parentIDs ≠ other.parentIDs ∨
    UInt64.ofNat block.transactions.length ≠ UInt64.ofNat other.transactions.length ∨
    block.transactions.map Transaction.id = other.transactions.map Transaction.id

/-- The bytes identify the content of exactly the distinguished pairs. -/
theorem bytes_identify_iff (block other : Block) :
    (block.generateBytes = other.generateBytes → block.SameContent other) ↔
      block.Distinguished other := by
  unfold Block.generateBytes Block.SameContent Block.Distinguished
  rw [headerBytes_eq_iff]
  tauto

/-- For blocks built by `NewBlock`, equal bytes mean equal content exactly when the blocks
differ in height, parents or number of transactions, or have the same transactions; and so
do equal IDs when the two hashes do not collide. -/
theorem block_identity_iff (sha256 : List UInt8 → ID) (ref ref' : ℕ) (now now' : ℤ)
    (parentIDs parentIDs' : List ID) (transactions transactions' : List Transaction)
    (height height' : UInt64) (block other : Block)
    (built : block = newBlock sha256 ref now parentIDs transactions height)
    (builtOther : other = newBlock sha256 ref' now' parentIDs' transactions' height') :
    ((block.generateBytes = other.generateBytes → block.SameContent other) ↔
      block.Distinguished other) ∧
    ((sha256 block.generateBytes = sha256 other.generateBytes →
        block.generateBytes = other.generateBytes) →
      ((block.id = other.id → block.SameContent other) ↔ block.Distinguished other)) := by
  refine ⟨bytes_identify_iff block other, ?_⟩
  intro noCollision
  have sameID : block.id = other.id ↔ block.generateBytes = other.generateBytes := by
    have genuine : block.Genuine sha256 := built ▸ newBlock_genuine ..
    have genuineOther : other.Genuine sha256 := builtOther ▸ newBlock_genuine ..
    rw [genuine, genuineOther]
    exact ⟨noCollision, congrArg sha256⟩
  rw [sameID]
  exact bytes_identify_iff block other

/-- The bytes of the names used below. -/
def alice : List UInt8 := [97, 108, 105, 99, 101]

def bob : List UInt8 := [98, 111, 98]

def charlie : List UInt8 := [99, 104, 97, 114, 108, 105, 101]

/-- A transfer of 100 between the first two names. -/
def transfer (ref : ℕ) (nonce : UInt64) : Transaction :=
  newTransaction positionalHash ref alice bob 100 nonce

/-- Two blocks at height 1 with one transfer each have the same bytes and the same ID. -/
theorem transactions_not_identified :
    let block := newBlock positionalHash 1 0 [genesisID] [transfer 0 1] 1
    let other := newBlock positionalHash 2 0 [genesisID] [transfer 1 2] 1
    block.generateBytes = other.generateBytes ∧ block.id = other.id ∧
      ¬ block.SameContent other := by
  intro block other
  refine ⟨rfl, rfl, ?_⟩
  rintro ⟨_, _, transactions⟩
  exact absurd transactions (by decide +kernel)

/-- An empty block and a block with one transfer are told apart. -/
theorem empty_block_identified :
    let block := newBlock positionalHash 1 0 [genesisID] [] 1
    let other := newBlock positionalHash 2 0 [genesisID] [transfer 0 1] 1
    block.generateBytes = other.generateBytes → block.SameContent other := by
  intro block other
  exact (block_identity_iff positionalHash 1 2 0 0 [genesisID] [genesisID] [] [transfer 0 1] 1 1
    block other rfl rfl).1.mpr (Or.inr (Or.inr (Or.inl (by decide))))

/-- The text of a transfer determines the amount and the nonce; sender and recipient are
determined up to the dash that separates them. -/
theorem transferBytes_eq_iff (sender recipient sender' recipient' : List UInt8)
    (amount nonce amount' nonce' : UInt64) :
    transferBytes sender recipient amount nonce = transferBytes sender' recipient' amount' nonce' ↔
      amount = amount' ∧ nonce = nonce' ∧
        ((sender = sender' ∧ recipient = recipient') ∨
          Shifted dash sender recipient sender' recipient' ∨
          Shifted dash sender' recipient' sender recipient) := by
  have numbers (value : UInt64) : dash ∉ decimal value.toNat := not_mem_decimal (by decide) _
  have text (sender recipient : List UInt8) (amount nonce : UInt64) :
      transferBytes sender recipient amount nonce =
        ((sender ++ dash :: recipient) ++ dash :: decimal amount.toNat) ++
          dash :: decimal nonce.toNat := by
    simp only [transferBytes, List.append_assoc, List.cons_append]
  rw [← joined_eq_iff, text, text]
  constructor
  · intro same
    obtain ⟨front, nonces⟩ := joined_inj_right (numbers nonce) (numbers nonce') same
    obtain ⟨names, amounts⟩ := joined_inj_right (numbers amount) (numbers amount') front
    exact ⟨UInt64.toNat_inj.mp (decimal_injective amounts),
      UInt64.toNat_inj.mp (decimal_injective nonces), names⟩
  · rintro ⟨rfl, rfl, names⟩
    rw [names]

/-- The transactions have the same sender, recipient, amount and nonce. -/
def Transaction.SameTransfer (tx other : Transaction) : Prop :=
  tx.sender = other.sender ∧ tx.recipient = other.recipient ∧ tx.amount = other.amount ∧
    tx.nonce = other.nonce

/-- With amount and nonce in common, the sender of one transaction is that of the other,
a dash and some text, and this text and a dash begin the recipient of the other. -/
def Transaction.Confusable (tx other : Transaction) : Prop :=
  tx.amount = other.amount ∧ tx.nonce = other.nonce ∧
    (Shifted dash tx.sender tx.recipient other.sender other.recipient ∨
      Shifted dash other.sender other.recipient tx.sender tx.recipient)

/-- The bytes identify exactly the transfers that are not confusable. -/
theorem transfer_identified_iff (tx other : Transaction) :
    (tx.generateBytes = other.generateBytes → tx.SameTransfer other) ↔ ¬ tx.Confusable other := by
  unfold Transaction.generateBytes Transaction.SameTransfer Transaction.Confusable
  rw [transferBytes_eq_iff]
  constructor
  · rintro identified ⟨amounts, nonces, shifted⟩
    obtain ⟨senders, _⟩ := identified ⟨amounts, nonces, Or.inr shifted⟩
    rcases shifted with ⟨between, longer, _⟩ | ⟨between, longer, _⟩
    · exact absurd (senders.trans longer) (by simp)
    · exact absurd (senders.symm.trans longer) (by simp)
  · rintro distinct ⟨amounts, nonces, ⟨senders, recipients⟩ | shifted⟩
    · exact ⟨senders, recipients, amounts, nonces⟩
    · exact absurd ⟨amounts, nonces, shifted⟩ distinct

/-- For transactions built by `NewTransaction`, equal bytes mean equal fields exactly when
the two are not confusable; and so do equal IDs when the two hashes do not collide. -/
theorem transaction_identity_iff (sha256 : List UInt8 → ID) (ref ref' : ℕ)
    (sender recipient sender' recipient' : List UInt8) (amount nonce amount' nonce' : UInt64)
    (tx other : Transaction)
    (built : tx = newTransaction sha256 ref sender recipient amount nonce)
    (builtOther : other = newTransaction sha256 ref' sender' recipient' amount' nonce') :
    ((tx.generateBytes = other.generateBytes → tx.SameTransfer other) ↔ ¬ tx.Confusable other) ∧
    ((sha256 tx.generateBytes = sha256 other.generateBytes →
        tx.generateBytes = other.generateBytes) →
      ((tx.id = other.id → tx.SameTransfer other) ↔ ¬ tx.Confusable other)) := by
  refine ⟨transfer_identified_iff tx other, ?_⟩
  intro noCollision
  have sameID : tx.id = other.id ↔ tx.generateBytes = other.generateBytes := by
    have hashed : tx.id = sha256 tx.generateBytes := by rw [built]; rfl
    have hashedOther : other.id = sha256 other.generateBytes := by rw [builtOther]; rfl
    rw [hashed, hashedOther]
    exact ⟨noCollision, congrArg sha256⟩
  rw [sameID]
  exact transfer_identified_iff tx other

/-- A transfer from `a-b` to `c` and one from `a` to `b-c` are valid, different, and have
the same bytes and the same ID. -/
theorem moved_dash_not_identified :
    let tx := newTransaction positionalHash 0 [97, 45, 98] [99] 100 1
    let other := newTransaction positionalHash 1 [97] [98, 45, 99] 100 1
    tx.verify = none ∧ other.verify = none ∧ tx.generateBytes = other.generateBytes ∧
      tx.id = other.id ∧ ¬ tx.SameTransfer other := by
  intro tx other
  have sameBytes : tx.generateBytes = other.generateBytes := by decide
  refine ⟨by decide, by decide, sameBytes, congrArg positionalHash sameBytes, ?_⟩
  rintro ⟨senders, _⟩
  exact absurd senders (by decide)

/-- Senders without a dash leave no choice of the separator. -/
theorem not_confusable_of_plain {tx other : Transaction} (plain : dash ∉ tx.sender)
    (plainOther : dash ∉ other.sender) : ¬ tx.Confusable other := by
  rintro ⟨_, _, shifted | shifted⟩
  · exact plainOther shifted.mem_left
  · exact plain shifted.mem_left

/-- A transfer and its return are told apart. -/
theorem plain_names_identified :
    let tx := newTransaction positionalHash 0 alice bob 100 1
    let other := newTransaction positionalHash 1 bob alice 100 1
    tx.generateBytes = other.generateBytes → tx.SameTransfer other := by
  intro tx other
  exact (transaction_identity_iff positionalHash 0 1 alice bob bob alice 100 1 100 1 tx other rfl
    rfl).1.mpr (not_confusable_of_plain (by decide) (by decide))

end AvalancheParallel.Chain
