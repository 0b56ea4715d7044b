import AvalancheParallel.Chain.Selection

/-!
# The chain without its objects

What two executions of the chain have in common is seen only when the addresses
and the times of the blocks are left out. A ledger has the maps that
`CreateBlock` and `SubmitBlock` maintain, with the contents of blocks in place of
block objects, and its operations do what the chain operations do. The chain
refines the ledger: the view of a state after an operation is the ledger after the
corresponding operation on the view.
-/

namespace AvalancheParallel.Chain

open AvalancheParallel.RangeLoop AvalancheParallel.Ids

/-- A block without its address and timestamp. -/
structure Content where
  id : ID
  parentIDs : List ID
  height : UInt64
  transactions : List Transaction
deriving DecidableEq

def Block.content (block : Block) : Content :=
  ⟨block.id, block.parentIDs, block.height, block.transactions⟩

/-- The maps of a chain, with contents in place of blocks. -/
@[ext]
structure Ledger where
  blocks : ID → Option Content
  pendingBlocks : ID → Option Content
  latestBlocks : ID → Option Content
  blocksByHeight : UInt64 → Option (List Content)
  txPool : GoMap ID Transaction
  currentHeight : UInt64

/-- The ledger of a chain state. -/
def Blockchain.view (bc : Blockchain) : Ledger where
  blocks id := (bc.blocks.lookup id).map Block.content
  pendingBlocks id := (bc.pendingBlocks.lookup id).map Block.content
  latestBlocks id := (bc.latestBlocks.lookup id).map Block.content
  blocksByHeight height := (bc.blocksByHeight.lookup height).map (List.map Block.content)
  txPool := bc.txPool
  currentHeight := bc.currentHeight

namespace Ledger

/-- What `CreateBlock` writes. -/
def store (content : Content) (ledger : Ledger) : Ledger :=
  { ledger with
    blocks := Function.update ledger.blocks content.id (some content)
    pendingBlocks := Function.update ledger.pendingBlocks content.id (some content)
    blocksByHeight := Function.update ledger.blocksByHeight content.height
      (some ((ledger.blocksByHeight content.height).getD [] ++ [content]))
    txPool := content.transactions.foldl (fun pool tx => pool.erase tx.id) ledger.txPool }

/-- What `SubmitBlock` writes for a stored block. -/
def submit (content : Content) (ledger : Ledger) : Ledger :=
  { ledger with
    latestBlocks := fun id =>
      if id = content.id then some content
      else if id ∈ content.parentIDs then none else ledger.latestBlocks id
    currentHeight :=
      if ledger.currentHeight < content.height then content.height else ledger.currentHeight }

/-- The height rule of `CreateBlock`. -/
def nextHeight (ledger : Ledger) (parentIDs : List ID) : UInt64 :=
  parentIDs.foldl (fun height parentID =>
      match ledger.blocks parentID with
      | none => height
      | some parent =>
        if ledger.currentHeight ≤ parent.height then parent.height + 1 else height)
    (ledger.currentHeight + 1)

/-- The contents listed for a height. -/
def listed (ledger : Ledger) (height : UInt64) : List Content :=
  (ledger.blocksByHeight height).getD []

/-- A stored block is added to the list of its height. -/
theorem store_listed (content : Content) (ledger : Ledger) (height : UInt64) :
    (ledger.store content).listed height =
      ledger.listed height ++ [content].filter (fun other => decide (other.height = height)) := by
  unfold listed store
  by_cases same : height = content.height
  · subst same
    simp
  · have different : ¬ content.height = height := fun equal => same equal.symm
    simp [different, Function.update_of_ne same]

/-- Stored blocks are added to the lists of their heights, in their order. -/
theorem stores_listed (contents : List Content) (ledger : Ledger) (height : UInt64) :
    (contents.foldl (fun ledger content => ledger.store content) ledger).listed height =
      ledger.listed height ++ contents.filter (fun other => decide (other.height = height)) := by
  induction contents generalizing ledger with
  | nil => simp
  | cons content rest inductionHypothesis =>
    rw [List.foldl_cons, inductionHypothesis, store_listed, List.append_assoc,
      ← List.filter_append, List.singleton_append]

/-- The lists of all heights together show which contents were stored. -/
theorem stores_perm {ledger : Ledger} (contents others : List Content)
    (same : (contents.foldl (fun ledger content => ledger.store content) ledger).blocksByHeight =
      (others.foldl (fun ledger content => ledger.store content) ledger).blocksByHeight) :
    contents.Perm others := by
  rw [List.perm_iff_count]
  intro content
  have lists : (contents.foldl (fun ledger content => ledger.store content)
      ledger).listed content.height =
      (others.foldl (fun ledger content => ledger.store content) ledger).listed
        content.height := by
    unfold listed
    rw [same]
  rw [stores_listed, stores_listed] at lists
  have counts := congrArg (List.count content) (List.append_cancel_left lists)
  rw [List.count_filter (by simp), List.count_filter (by simp)] at counts
  exact counts

/-- The lists after two stores determine the two contents up to their order. -/
theorem stores_determine {ledger : Ledger} {first second one two : Content}
    (same : ((ledger.store first).store second).blocksByHeight =
      ((ledger.store one).store two).blocksByHeight) :
    (one = first ∧ two = second) ∨ (one = second ∧ two = first) := by
  have perm := stores_perm [first, second] [one, two] same
  rcases List.mem_cons.mp (perm.mem_iff.mpr List.mem_cons_self) with rfl | inRest
  · exact Or.inl ⟨rfl, (List.singleton_perm_singleton.mp (List.perm_cons one |>.mp perm)).symm⟩
  · have equal : one = second := List.mem_singleton.mp inRest
    subst equal
    have swapped := (List.Perm.swap first one []).trans perm
    exact Or.inr ⟨rfl, (List.singleton_perm_singleton.mp (List.perm_cons one |>.mp swapped)).symm⟩

/-- Two stores cannot look like one store or none. -/
theorem stores_twice {ledger : Ledger} {first second : Content} (others : List Content)
    (few : others.length ≤ 1) :
    ((ledger.store first).store second).blocksByHeight ≠
      (others.foldl (fun ledger content => ledger.store content) ledger).blocksByHeight := by
  intro same
  have lengths := (stores_perm [first, second] others same).length_eq
  simp only [List.length_cons, List.length_nil] at lengths
  omega

/-- The lists of equal heights show the order of two stores. -/
theorem stores_height {ledger : Ledger} {first second : Content}
    (same : ((ledger.store first).store second).blocksByHeight =
      ((ledger.store second).store first).blocksByHeight) (height : first.height = second.height) :
    first = second := by
  have lists : ((ledger.store first).store second).listed first.height =
      ((ledger.store second).store first).listed first.height := by
    unfold listed
    rw [same]
  simp only [store_listed, height, List.filter_singleton, decide_true, cond_true,
    List.append_assoc] at lists
  have pairs := List.append_cancel_left lists
  exact (List.cons.inj pairs).1

/-- The stored block shows the last of two stores with one ID. -/
theorem stores_id {ledger : Ledger} {first second : Content}
    (same : ((ledger.store first).store second).blocks = ((ledger.store second).store first).blocks)
    (ids : first.id = second.id) : first = second := by
  have here := congrFun same first.id
  simp only [store, ids, Function.update_self] at here
  exact (Option.some.inj here).symm

end Ledger

/-- Stored in either order, the contents do not replace each other and are not listed in
different orders. -/
def StoresCommute (first second : Content) : Prop :=
  (first.id = second.id → first = second) ∧ (first.height = second.height → first = second)

/-- Submitted in either order, the contents leave the same tips. -/
def SubmitsCommute (first second : Content) : Prop :=
  (first.id = second.id → first = second) ∧
    (first.id ≠ second.id → first.id ∉ second.parentIDs ∧ second.id ∉ first.parentIDs)

instance (first second : Content) : Decidable (StoresCommute first second) :=
  inferInstanceAs (Decidable (_ ∧ _))

instance (first second : Content) : Decidable (SubmitsCommute first second) :=
  inferInstanceAs (Decidable (_ ∧ _))

namespace Ledger

/-- Two blocks that do not interfere may be stored in either order. -/
theorem store_comm {first second : Content} (commute : StoresCommute first second)
    (ledger : Ledger) : (ledger.store first).store second = (ledger.store second).store first := by
  by_cases same : first = second
  · rw [same]
  · have ids : first.id ≠ second.id := fun equal => same (commute.1 equal)
    have heights : first.height ≠ second.height := fun equal => same (commute.2 equal)
    apply Ledger.ext
    · exact Function.update_comm ids _ _ _
    · exact Function.update_comm ids _ _ _
    · rfl
    · simp only [store, Function.update_of_ne heights, Function.update_of_ne heights.symm]
      exact Function.update_comm heights _ _ _
    · apply Finmap.ext_lookup
      intro id
      simp only [store, lookup_foldl_erase]
      split <;> split <;> rfl
    · rfl

/-- The tips after two submissions tell their order unless the submissions commute. -/
theorem submit_latest_iff (first second : Content) (ledger : Ledger) :
    ((ledger.submit first).submit second).latestBlocks =
        ((ledger.submit second).submit first).latestBlocks ↔ SubmitsCommute first second := by
  constructor
  · intro same
    have atFirst := congrFun same first.id
    have atSecond := congrFun same second.id
    simp only [submit, if_true] at atFirst atSecond
    constructor
    · intro ids
      rw [if_pos ids] at atFirst
      exact (Option.some.inj atFirst).symm
    · intro ids
      rw [if_neg ids] at atFirst
      rw [if_neg (Ne.symm ids)] at atSecond
      constructor
      · intro named
        rw [if_pos named] at atFirst
        cases atFirst
      · intro named
        rw [if_pos named] at atSecond
        cases atSecond
  · rintro ⟨sameContent, unnamed⟩
    by_cases ids : first.id = second.id
    · rw [sameContent ids]
    · obtain ⟨firstFree, secondFree⟩ := unnamed ids
      funext id
      simp only [submit]
      by_cases isFirst : id = first.id
      · subst isFirst
        simp [ids, firstFree]
      · by_cases isSecond : id = second.id
        · subst isSecond
          simp [isFirst, secondFree]
        · by_cases inFirst : id ∈ first.parentIDs <;> by_cases inSecond : id ∈ second.parentIDs <;>
            simp [isFirst, isSecond, inFirst, inSecond]

/-- The current height is the greatest of those submitted. -/
theorem submit_currentHeight (content : Content) (ledger : Ledger) :
    (ledger.submit content).currentHeight.toNat =
      max ledger.currentHeight.toNat content.height.toNat := by
  by_cases below : ledger.currentHeight < content.height
  · have numbers := UInt64.lt_iff_toNat_lt.mp below
    simp only [submit, if_pos below]
    omega
  · have numbers := mt UInt64.lt_iff_toNat_lt.mpr below
    simp only [submit, if_neg below]
    omega

/-- Two blocks that do not interfere may be submitted in either order. -/
theorem submit_comm {first second : Content} (commute : SubmitsCommute first second)
    (ledger : Ledger) :
    (ledger.submit first).submit second = (ledger.submit second).submit first := by
  apply Ledger.ext
  · rfl
  · rfl
  · exact (submit_latest_iff first second ledger).mpr commute
  · rfl
  · rfl
  · apply UInt64.toNat_inj.mp
    rw [submit_currentHeight, submit_currentHeight, submit_currentHeight, submit_currentHeight]
    omega

end Ledger

/-- The view has the next height of the chain. -/
theorem nextHeight_view (bc : Blockchain) (parentIDs : List ID) :
    bc.view.nextHeight parentIDs = nextHeight bc parentIDs := by
  unfold Ledger.nextHeight nextHeight
  congr 1
  funext height parentID
  simp only [Blockchain.view]
  cases bc.blocks.lookup parentID with
  | none => rfl
  | some parent => rfl

/-- The view has the blocks of the chain. -/
theorem mem_blocks_view (bc : Blockchain) (id : ID) :
    (bc.view.blocks id).isSome ↔ id ∈ bc.blocks := by
  simp only [Blockchain.view, Option.isSome_map, Option.isSome_iff_exists, Finmap.mem_iff]

/-- Writing an entry of a map is writing its content. -/
theorem map_lookup_insert {K V W : Type*} [DecidableEq K] (entries : GoMap K V) (key : K)
    (written : V) (content : V → W) :
    (fun other => ((entries.insert key written).lookup other).map content) =
      Function.update (fun other => (entries.lookup other).map content) key
        (some (content written)) := by
  funext other
  by_cases same : other = key
  · subst same
    rw [Finmap.lookup_insert, Function.update_self]
    rfl
  · rw [Finmap.lookup_insert_of_ne entries same, Function.update_of_ne same]

/-- `CreateBlock` does to the view what it does to the chain. -/
theorem storeBlock_view (block : Block) (bc : Blockchain) :
    (storeBlock block bc).view = bc.view.store block.content := by
  have lists : ((bc.blocksByHeight.lookup block.height).getD [] ++ [block]).map Block.content =
      ((bc.blocksByHeight.lookup block.height).map (List.map Block.content)).getD [] ++
        [block.content] := by
    cases bc.blocksByHeight.lookup block.height with
    | none => rfl
    | some listed => simp
  apply Ledger.ext
  · exact map_lookup_insert bc.blocks block.id block Block.content
  · exact map_lookup_insert bc.pendingBlocks block.id block Block.content
  · rfl
  · have written := map_lookup_insert bc.blocksByHeight block.height
      ((bc.blocksByHeight.lookup block.height).getD [] ++ [block]) (List.map Block.content)
    rw [lists] at written
    exact written
  · rfl
  · rfl

/-- `SubmitBlock` does to the view what it does to the chain. -/
theorem submitBlock_view (block : Block) (bc : Blockchain) (known : block.id ∈ bc.blocks) :
    (submitBlock block bc).view = bc.view.submit block.content := by
  apply Ledger.ext
  · simp [submitBlock, known, Blockchain.view, Ledger.submit]
  · simp [submitBlock, known, Blockchain.view, Ledger.submit]
  · funext id
    simp only [Blockchain.view, submitBlock_latest, Ledger.submit, Block.content]
    by_cases own : id = block.id
    · simp only [own, if_true, Option.map_some, Block.content]
    · by_cases named : id ∈ block.parentIDs
      · simp only [own, named, if_true, if_false, Option.map_none]
      · simp only [own, named, if_false]
  · rfl
  · rfl
  · rfl

end AvalancheParallel.Chain
