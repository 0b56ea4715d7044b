import AvalancheParallel.Chain.CreateRequests

/-!
# What the next header depends on

The ID and the height of a new block depend on the heights of the stored blocks, on
the current height and on the number of transactions in the pool. An outlook has
just these. The order in which the pool is visited is not part of it, so what is
said of outlooks is said of the state and the request before `CreateBlock` runs.
-/

namespace AvalancheParallel.Chain

open AvalancheParallel.RangeLoop AvalancheParallel.Ids

/-- A block without its transactions; `generateBytes` looks at no more. -/
structure Header where
  id : ID
  parentIDs : List ID
  height : UInt64
  txCount : ℕ
deriving DecidableEq

def Content.header (content : Content) : Header :=
  ⟨content.id, content.parentIDs, content.height, content.transactions.length⟩

/-- A content is its header and its transactions. -/
theorem Content.eq_of_header {first second : Content} (headers : first.header = second.header)
    (transactions : first.transactions = second.transactions) : first = second := by
  cases first
  cases second
  simp_all [Content.header]

/-- The numbers from which the next header is computed. -/
@[ext]
structure Outlook where
  heights : ID → Option UInt64
  currentHeight : UInt64
  pooled : ℕ

def Ledger.outlook (ledger : Ledger) : Outlook where
  heights id := (ledger.blocks id).map Content.height
  currentHeight := ledger.currentHeight
  pooled := ledger.txPool.keys.card

/-- The last of the heights that are not below the bound; the bound if there is none. -/
def lastFrom (bound : UInt64) (heights : List UInt64) : UInt64 :=
  heights.foldl (fun last height => if bound ≤ height then height else last) bound

/-- The last height decides if it is not below the bound. -/
@[simp] theorem lastFrom_append_singleton (bound : UInt64) (earlier : List UInt64)
    (height : UInt64) : lastFrom bound (earlier ++ [height]) =
      if bound ≤ height then height else lastFrom bound earlier := by
  simp [lastFrom]

/-- What is found is not below the bound. -/
theorem le_lastFrom (bound : UInt64) (heights : List UInt64) : bound ≤ lastFrom bound heights := by
  induction heights using List.reverseRecOn with
  | nil => exact UInt64.le_refl bound
  | append_singleton earlier height inductionHypothesis =>
    rw [lastFrom_append_singleton]
    split
    · assumption
    · exact inductionHypothesis

/-- A higher bound gives the same height exactly if that height reaches it. -/
theorem lastFrom_eq_iff {low high : UInt64} (raised : low < high) (heights : List UInt64) :
    lastFrom high heights = lastFrom low heights ↔ high ≤ lastFrom low heights := by
  constructor
  · intro same
    rw [← same]
    exact le_lastFrom high heights
  · intro reached
    induction heights using List.reverseRecOn with
    | nil => exact absurd reached (UInt64.not_le.mpr raised)
    | append_singleton earlier height inductionHypothesis =>
      rw [lastFrom_append_singleton] at reached ⊢
      rw [lastFrom_append_singleton]
      by_cases aboveHigh : high ≤ height
      · have aboveLow : low ≤ height := UInt64.le_trans (UInt64.le_of_lt raised) aboveHigh
        rw [if_pos aboveHigh, if_pos aboveLow]
      · by_cases aboveLow : low ≤ height
        · rw [if_pos aboveLow] at reached
          exact absurd reached aboveHigh
        · rw [if_neg aboveLow] at reached
          rw [if_neg aboveHigh, if_neg aboveLow]
          exact inductionHypothesis reached

namespace Outlook

/-- The height of the last parent that is not below the current height; the current height if
there is none. -/
def baseHeight (outlook : Outlook) (parentIDs : List ID) : UInt64 :=
  lastFrom outlook.currentHeight (parentIDs.filterMap outlook.heights)

/-- The height rule of `CreateBlock`. -/
def nextHeight (outlook : Outlook) (parentIDs : List ID) : UInt64 :=
  outlook.baseHeight parentIDs + 1

/-- The request names stored parents and a bound that `make` accepts. -/
def Builds (request : CreateRequest) (outlook : Outlook) : Prop :=
  (∀ parentID ∈ request.parentIDs, (outlook.heights parentID).isSome) ∧ 0 ≤ request.maxTxs ∧
    request.maxTxs ≤ maxSliceCap

instance (request : CreateRequest) (outlook : Outlook) : Decidable (outlook.Builds request) :=
  inferInstanceAs (Decidable (_ ∧ _ ∧ _))

/-- How many transactions the request takes. -/
def taken (maxTxs : ℤ) (outlook : Outlook) : ℕ := min outlook.pooled (max 1 maxTxs).toNat

/-- The header the request leads to. -/
def header (sha256 : List UInt8 → ID) (request : CreateRequest) (outlook : Outlook) : Header :=
  let height := outlook.nextHeight request.parentIDs
  let txCount := outlook.taken request.maxTxs
  ⟨sha256 (headerBytes height request.parentIDs txCount), request.parentIDs, height, txCount⟩

/-- After a block with this header has been created. -/
def store (header : Header) (outlook : Outlook) : Outlook :=
  { outlook with
    heights := Function.update outlook.heights header.id (some header.height)
    pooled := outlook.pooled - header.txCount }

/-- After a block with this header has been submitted. -/
def submit (header : Header) (outlook : Outlook) : Outlook :=
  { outlook with
    currentHeight :=
      if outlook.currentHeight < header.height then header.height else outlook.currentHeight }

/-- A submission leaves the next height alone exactly if it does not raise the current height
or the parents reach the height of the submitted block. -/
theorem submit_nextHeight_iff (header : Header) (outlook : Outlook) (parentIDs : List ID) :
    (outlook.submit header).nextHeight parentIDs = outlook.nextHeight parentIDs ↔
      (outlook.currentHeight < header.height → header.height ≤ outlook.baseHeight parentIDs) := by
  unfold nextHeight baseHeight
  rw [UInt64.add_left_inj]
  by_cases raised : outlook.currentHeight < header.height
  · have current : (outlook.submit header).currentHeight = header.height := if_pos raised
    rw [current, forall_prop_of_true raised]
    exact lastFrom_eq_iff raised _
  · have current : (outlook.submit header).currentHeight = outlook.currentHeight := if_neg raised
    rw [current]
    exact iff_of_true rfl (fun below => absurd below raised)

end Outlook

/-- The outlook has the next height of the ledger. -/
theorem nextHeight_outlook (ledger : Ledger) (parentIDs : List ID) :
    ledger.outlook.nextHeight parentIDs = ledger.nextHeight parentIDs := by
  unfold Outlook.nextHeight Outlook.baseHeight Ledger.nextHeight Ledger.outlook
  induction parentIDs using List.reverseRecOn with
  | nil => rfl
  | append_singleton earlier parentID inductionHypothesis =>
    rw [List.foldl_append, ← inductionHypothesis, List.filterMap_append]
    cases found : ledger.blocks parentID with
    | none => simp [found]
    | some parent =>
      by_cases high : ledger.currentHeight ≤ parent.height
      · simp [found, high]
      · simp [found, high]

/-- The outlook knows which requests build a block. -/
theorem builds_outlook (ledger : Ledger) (request : CreateRequest) :
    ledger.outlook.Builds request ↔ ledger.Builds request := by
  simp only [Outlook.Builds, Ledger.Builds, Ledger.outlook, Option.isSome_map]

/-- The keys left after transactions were taken from the pool. -/
theorem card_foldl_erase {txs : List Transaction} {txPool : GoMap ID Transaction}
    (distinct : (txs.map Transaction.id).Nodup)
    (pooled : ∀ tx ∈ txs, txPool.lookup tx.id = some tx) :
    (txs.foldl (fun pool tx => pool.erase tx.id) txPool).keys.card =
      txPool.keys.card - txs.length := by
  have keys : (txs.foldl (fun pool tx => pool.erase tx.id) txPool).keys =
      txPool.keys \ (txs.map Transaction.id).toFinset := by
    ext id
    simp only [Finmap.mem_keys, Finmap.mem_iff, lookup_foldl_erase_some, exists_and_right,
      Finset.mem_sdiff, List.mem_toFinset]
  have inPool : (txs.map Transaction.id).toFinset ⊆ txPool.keys := by
    intro id member
    obtain ⟨tx, inside, rfl⟩ := List.mem_map.mp (List.mem_toFinset.mp member)
    exact Finmap.mem_keys.mpr (Finmap.mem_of_lookup_eq_some (pooled tx inside))
  rw [keys, Finset.card_sdiff_of_subset inPool, List.toFinset_card_of_nodup distinct,
    List.length_map]

namespace Ledger

variable {ledger : Ledger}

/-- The outlook foretells the header of the block that a request builds. -/
theorem create_header (sha256 : List UInt8 → ID) (keyed : IDKeyed ledger.txPool)
    (request : CreateRequest) :
    (ledger.create sha256 request).header = ledger.outlook.header sha256 request := by
  unfold create sealed Content.header Outlook.header
  simp only [selectTxs_length keyed, nextHeight_outlook]
  rfl

/-- Submitting a block changes the outlook by its header only. -/
theorem submit_outlook (content : Content) :
    (ledger.submit content).outlook = ledger.outlook.submit content.header := rfl

/-- A content made of transactions of the pool. -/
structure Drawn (content : Content) (ledger : Ledger) : Prop where
  distinct : (content.transactions.map Transaction.id).Nodup
  pooled : ∀ tx ∈ content.transactions, ledger.txPool.lookup tx.id = some tx

/-- A block that is built draws its transactions from the pool. -/
theorem create_drawn (sha256 : List UInt8 → ID) (keyed : IDKeyed ledger.txPool)
    (request : CreateRequest) : Drawn (ledger.create sha256 request) ledger :=
  ⟨selectTxs_nodup keyed request.order request.maxTxs, fun _ taken => selectTxs_pooled keyed taken⟩

/-- Storing a block that draws from the pool changes the outlook by its header only. -/
theorem store_outlook {content : Content} (drawn : Drawn content ledger) :
    (ledger.store content).outlook = ledger.outlook.store content.header := by
  apply Outlook.ext
  · funext id
    by_cases same : id = content.id
    · simp [outlook, store, Outlook.store, Content.header, same]
    · simp [outlook, store, Outlook.store, Content.header, Function.update_of_ne same]
  · rfl
  · exact card_foldl_erase drawn.distinct drawn.pooled

end Ledger

end AvalancheParallel.Chain
