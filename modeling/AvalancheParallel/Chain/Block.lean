import AvalancheParallel.Foundation.Encoding
import AvalancheParallel.Foundation.SeparatedText
import AvalancheParallel.Ids

/-!
# Transactions and blocks

The objects of `pkg/blockchain/transaction.go` and `pkg/blockchain/block.go`. A
Go pointer is a value whose `ref` tells it apart from other objects with the same
contents; the fields listed here are not changed after construction, and the
mutable status lives in the state of the chain. Signatures, dependencies and the
cached bytes have no part in the chain operations.

The ID of a transaction or a block is the hash of its `generateBytes`. For a
transaction this is a text of its four fields, for a block the height, the
parents and the number of transactions. SHA-256 is a parameter.
-/

namespace AvalancheParallel.Chain

open AvalancheParallel.Ids AvalancheParallel.Encoding AvalancheParallel.SeparatedText

/-- A `*Transaction`. Strings are their bytes. -/
structure Transaction where
  ref : ℕ
  id : ID
  sender : List UInt8
  recipient : List UInt8
  amount : UInt64
  nonce : UInt64
deriving DecidableEq

/-- The errors of `Transaction.Verify`. -/
inductive TransactionError where
  | invalidSenderOrRecipient
  | zeroAmount
deriving DecidableEq, Repr

/-- The texts of the error values. -/
def TransactionError.message : TransactionError → String
  | .invalidSenderOrRecipient => "invalid sender or recipient"
  | .zeroAmount => "amount must be greater than zero"

/-- `Transaction.Verify`; `none` is the nil error. -/
def Transaction.verify (tx : Transaction) : Option TransactionError :=
  if tx.sender = [] ∨ tx.recipient = [] then some .invalidSenderOrRecipient
  else if tx.amount = 0 then some .zeroAmount
  else none

/-- The byte between the fields of a transaction. -/
def dash : UInt8 := 45

/-- The text `"%s-%s-%d-%d"` of the fields. -/
def transferBytes (sender recipient : List UInt8) (amount nonce : UInt64) : List UInt8 :=
  sender ++ dash :: (recipient ++ dash :: (decimal amount.toNat ++ dash :: decimal nonce.toNat))

/-- `Transaction.generateBytes`. It returns no error. -/
def Transaction.generateBytes (tx : Transaction) : List UInt8 :=
  transferBytes tx.sender tx.recipient tx.amount tx.nonce

/-- `NewTransaction`, with the address of the new object. -/
def newTransaction (sha256 : List UInt8 → ID) (ref : ℕ) (sender recipient : List UInt8)
    (amount nonce : UInt64) : Transaction where
  ref := ref
  id := sha256 (transferBytes sender recipient amount nonce)
  sender := sender
  recipient := recipient
  amount := amount
  nonce := nonce

/-- A `*Block`. -/
structure Block where
  ref : ℕ
  id : ID
  parentIDs : List ID
  height : UInt64
  timestamp : ℤ
  transactions : List Transaction
deriving DecidableEq

/-- `Block.Verify`: the error of the first transaction that fails. -/
def Block.verify (block : Block) : Option TransactionError :=
  block.transactions.findSome? Transaction.verify

/-- The bytes hashed for a block with this height, these parents and this many
transactions: the fields are written one after the other into a buffer of their
total size. -/
def headerBytes (height : UInt64) (parentIDs : List ID) (txCount : ℕ) : List UInt8 :=
  bigEndian64 height ++ (bigEndian64 (UInt64.ofNat parentIDs.length) ++
    (parentIDs.flatMap Vector.toList ++ bigEndian64 (UInt64.ofNat txCount)))

/-- `Block.generateBytes`. It returns no error. -/
def Block.generateBytes (block : Block) : List UInt8 :=
  headerBytes block.height block.parentIDs block.transactions.length

/-- `NewBlock`, with the address of the new object and the current time. -/
def newBlock (sha256 : List UInt8 → ID) (ref : ℕ) (now : ℤ) (parentIDs : List ID)
    (transactions : List Transaction) (height : UInt64) : Block where
  ref := ref
  id := sha256 (headerBytes height parentIDs transactions.length)
  parentIDs := parentIDs
  height := height
  timestamp := now
  transactions := transactions

/-- The block carries the ID that `NewBlock` gives it. -/
def Block.Genuine (sha256 : List UInt8 → ID) (block : Block) : Prop :=
  block.id = sha256 block.generateBytes

/-- A new block has the ID of its header. -/
theorem newBlock_genuine (sha256 : List UInt8 → ID) (ref : ℕ) (now : ℤ) (parentIDs : List ID)
    (transactions : List Transaction) (height : UInt64) :
    (newBlock sha256 ref now parentIDs transactions height).Genuine sha256 := rfl

/-- The header has a fixed part and 32 bytes for each parent. -/
theorem headerBytes_length (height : UInt64) (parentIDs : List ID) (txCount : ℕ) :
    (headerBytes height parentIDs txCount).length = 24 + 32 * parentIDs.length := by
  have parents := length_flatMap_fixed Vector.toList 32 (fun id : ID => id.length_toList) parentIDs
  simp only [headerBytes, List.length_append, bigEndian64_length, parents]
  omega

/-- The bytes determine the height, the parents and the number of transactions modulo
`2 ^ 64`, and nothing else enters them. -/
theorem headerBytes_eq_iff (height otherHeight : UInt64) (parentIDs otherParentIDs : List ID)
    (txCount otherTxCount : ℕ) :
    headerBytes height parentIDs txCount = headerBytes otherHeight otherParentIDs otherTxCount ↔
      height = otherHeight ∧ parentIDs = otherParentIDs ∧
        UInt64.ofNat txCount = UInt64.ofNat otherTxCount := by
  constructor
  · intro same
    have sameLength := congrArg List.length same
    rw [headerBytes_length, headerBytes_length] at sameLength
    have sameCount : parentIDs.length = otherParentIDs.length := by omega
    have width := length_flatMap_fixed Vector.toList 32 (fun id : ID => id.length_toList)
    simp only [headerBytes] at same
    rw [append_eq_append_iff (by simp)] at same
    obtain ⟨heights, rest⟩ := same
    rw [append_eq_append_iff (by simp)] at rest
    obtain ⟨_, rest⟩ := rest
    rw [append_eq_append_iff (by rw [width, width, sameCount])] at rest
    obtain ⟨parents, counts⟩ := rest
    refine ⟨bigEndian64_injective heights, ?_, bigEndian64_injective counts⟩
    exact flatMap_fixed_injective Vector.toList 32 (fun id => id.length_toList)
      (fun _ _ equal => Vector.toList_inj.mp equal) parentIDs otherParentIDs sameCount parents
  · rintro ⟨rfl, rfl, counts⟩
    simp only [headerBytes, counts]

end AvalancheParallel.Chain
