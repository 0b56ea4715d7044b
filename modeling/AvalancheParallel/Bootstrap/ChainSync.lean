import AvalancheParallel.Bootstrap.BlockExecution

/-!
# Fetching one chain

The blocks that bootstrapping fetches belong to one chain: the network accepted the last of
them, and an identifier, being a hash, names one block. Of every stored block above the next
height to execute either the parent is stored or its identifier is wanted. When nothing is
wanted any more, the stored blocks above the last accepted height are therefore a gapless
continuation of the accepted chain.
-/

namespace AvalancheParallel.Bootstrap.BlockStorage

open AvalancheParallel.Ids
open AvalancheParallel.RangeLoop (GoMap)
open AvalancheParallel.Database
open AvalancheParallel.ByteOrder
open AvalancheParallel.SortedStore (Ascending)
open AvalancheParallel.SeparatedRanges
open AvalancheParallel.Utils (SetReading SetVariable)
open AvalancheParallel.Bootstrap.IntervalTree

/-- The chain up to its tip: each block names the one below it, identifiers are distinct and the
parser recovers each block from its bytes. -/
structure Chain {ε : Type*} (parse : Bytes → Except ε Block) where
  tip : UInt64
  block : UInt64 → Block
  height_block : ∀ height, height ≤ tip → (block height).height = height
  parent_block : ∀ height, 0 < height → height ≤ tip →
    (block height).parent = (block (height - 1)).id
  id_injective : ∀ first second, first ≤ tip → second ≤ tip →
    (block first).id = (block second).id → first = second
  recovers : ∀ height, height ≤ tip → parse (block height).bytes = .ok (block height)

section

variable {ε : Type*} {parse : Bytes → Except ε Block} (chain : Chain parse)
  {B : Type} [BTreeG Pointer B]

/-- The identifier of a block of the chain. -/
def Chain.Names (id : ID) : Prop := ∃ height, height ≤ chain.tip ∧ id = (chain.block height).id

/-- A block that carries the identifier of a block of the chain is that block. -/
def Chain.Authentic (blk : Block) : Prop :=
  ∀ height, height ≤ chain.tip → blk.id = (chain.block height).id → blk = chain.block height

/-- A block is stored under the height. -/
def HasBlock (db : MemDb) (height : UInt64) : Prop := (db.get (makeBlockKey height)).isSome

/-- The stored blocks are those of the chain, and of each of them above the next height to
execute the parent is stored or wanted. -/
structure Synced (lastAcceptedHeight : UInt64) (tree : IntervalTree.Tree B) (db : MemDb)
    (wanted : ID → Prop) : Prop where
  stored : Stored parse tree db
  ofChain : ∀ height bytes, db.get (makeBlockKey height) = some bytes →
    height ≤ chain.tip ∧ bytes = (chain.block height).bytes
  frontier : ∀ height, HasBlock db height → lastAcceptedHeight.toNat + 1 < height.toNat →
    HasBlock db (height - 1) ∨ wanted (chain.block (height - 1)).id

variable {chain} {lastAcceptedHeight : UInt64}

/-- More IDs may be wanted. -/
theorem Synced.imp {tree : IntervalTree.Tree B} {db : MemDb} {wanted more : ID → Prop}
    (synced : Synced chain lastAcceptedHeight tree db wanted)
    (implied : ∀ id, wanted id → more id) : Synced chain lastAcceptedHeight tree db more :=
  ⟨synced.stored, synced.ofChain, fun height held above =>
    (synced.frontier height held above).imp_right (implied _)⟩

/-- The height below a positive one is within the same bound. -/
theorem sub_one_le {height bound : UInt64} (positive : 0 < height) (below : height ≤ bound) :
    height - 1 ≤ bound := by
  rw [UInt64.lt_iff_toNat_lt] at positive
  rw [UInt64.le_iff_toNat_le] at below ⊢
  rw [toNat_sub_one positive]
  omega

/-- The wanted parent of a stored block that is the given block is a block at the height below. -/
theorem Synced.height_of_parent {tree : IntervalTree.Tree B} {db : MemDb} {wanted : ID → Prop}
    {height other : UInt64} (synced : Synced chain lastAcceptedHeight tree db wanted)
    (below : height ≤ chain.tip) (held : HasBlock db other)
    (above : lastAcceptedHeight.toNat + 1 < other.toNat)
    (same : (chain.block (other - 1)).id = (chain.block height).id) : other - 1 = height := by
  obtain ⟨bytes, found⟩ := Option.isSome_iff_exists.mp held
  have within := (synced.ofChain other bytes found).1
  have positive : 0 < other := by
    rw [UInt64.lt_iff_toNat_lt]
    exact Nat.lt_of_le_of_lt (Nat.zero_le _) above
  exact chain.id_injective _ _ (sub_one_le positive within) below same

/-- Besides one block that is newly stored the frontier moves by at most its parent. -/
theorem Synced.frontier_added {tree : IntervalTree.Tree B} {db after : MemDb}
    {missing : Finset ID} {height : UInt64} {wants : Bool} (below : height ≤ chain.tip)
    (positive : 0 < height)
    (synced : Synced chain lastAcceptedHeight tree db
      (fun id => id ∈ missing ∨ id = (chain.block height).id))
    (here : HasBlock after height)
    (before : ∀ other, other ≠ height → (HasBlock after other ↔ HasBlock db other))
    (own : lastAcceptedHeight.toNat + 1 < height.toNat →
      HasBlock after (height - 1) ∨ wants = true)
    (other : UInt64) (held : HasBlock after other)
    (above : lastAcceptedHeight.toNat + 1 < other.toNat) :
    HasBlock after (other - 1) ∨
      (chain.block (other - 1)).id ∈ missing.erase (chain.block height).id ∨
      wants = true ∧ (chain.block (other - 1)).id = (chain.block height).parent := by
  by_cases equal : other = height
  · rw [equal] at above ⊢
    exact (own above).imp_right fun wanted =>
      Or.inr ⟨wanted, (chain.parent_block height positive below).symm⟩
  · have heldBefore := (before other equal).mp held
    by_cases parent : other - 1 = height
    · rw [parent]
      exact Or.inl here
    · rcases synced.frontier other heldBefore above with alsoHeld | member | first
      · exact Or.inl ((before _ parent).mpr alsoHeld)
      · right
        left
        refine Finset.mem_erase.mpr ⟨fun same => ?_, member⟩
        exact parent (synced.height_of_parent below heldBefore above same)
      · exact absurd (synced.height_of_parent below heldBefore above first) parent

section Processing

variable [LawfulBTreeG Pointer B]

/-- `interval.Add` of a block that is accepted or stored already: what is wanted besides that block
is still wanted. -/
theorem Synced.add_known {tree : IntervalTree.Tree B} {batch : BatchOps} {db : MemDb}
    {missing : Finset ID} {height : UInt64} (below : height ≤ chain.tip)
    (synced : Synced chain lastAcceptedHeight tree (batch.write db)
      (fun id => id ∈ missing ∨ id = (chain.block height).id))
    (known : ¬ Fresh tree lastAcceptedHeight height) :
    add batch tree lastAcceptedHeight (chain.block height).height (chain.block height).bytes =
        ((tree, batch), false) ∧
      Synced chain lastAcceptedHeight tree (batch.write db)
        (fun id => id ∈ missing.erase (chain.block height).id) := by
  have unchanged := add_of_not_fresh synced.stored.inStep.canonical batch
    (chain.block height).bytes known
  refine ⟨?_, synced.stored, synced.ofChain, ?_⟩
  · rw [chain.height_block height below, unchanged]
  · intro other held above
    rcases synced.frontier other held above with stored | wanted
    · exact Or.inl stored
    · by_cases same : (chain.block (other - 1)).id = (chain.block height).id
      · left
        have exactly := synced.height_of_parent below held above same
        -- The block is not new, and it is not accepted since its child is further up.
        have higher : lastAcceptedHeight < height := by
          rw [UInt64.lt_iff_toNat_lt, ← exactly, toNat_sub_one (by omega)]
          omega
        have holds : Holds tree.flatten height := by
          by_contra absent
          exact known ⟨higher, absent⟩
        rw [exactly]
        exact (synced.stored.holds height).mp holds
      · exact Or.inr (Finset.mem_erase.mpr ⟨same, wanted.resolve_right same⟩)

/-- `interval.Add` of a block of the chain: besides the missing blocks only its parent can be
wanted afterwards. -/
theorem Synced.add {tree : IntervalTree.Tree B} {batch : BatchOps} {db : MemDb}
    {missing : Finset ID} {height : UInt64} (below : height ≤ chain.tip)
    (synced : Synced chain lastAcceptedHeight tree (batch.write db)
      (fun id => id ∈ missing ∨ id = (chain.block height).id)) :
    let after := BlockStorage.add batch tree lastAcceptedHeight (chain.block height).height
      (chain.block height).bytes
    Synced chain lastAcceptedHeight after.1.1 (after.1.2.write db)
      (fun id => id ∈ missing.erase (chain.block height).id ∨
        after.2 = true ∧ id = (chain.block height).parent) ∧
      (∀ other, HasBlock (batch.write db) other → HasBlock (after.1.2.write db) other) ∧
      (after.2 = true → 0 < height ∧ ¬ HasBlock (batch.write db) height ∧
        HasBlock (after.1.2.write db) height) := by
  intro after
  by_cases fresh : Fresh tree lastAcceptedHeight height
  · have same := chain.height_block height below
    obtain ⟨stored, gets, wants⟩ := add_of_fresh synced.stored (chain.recovers height below)
      (by rw [same]; exact fresh)
    change Stored parse after.1.1 (after.1.2.write db) at stored
    change ∀ other, (after.1.2.write db).get (makeBlockKey other) =
      if other = (chain.block height).height then some (chain.block height).bytes
      else (batch.write db).get (makeBlockKey other) at gets
    change after.2 = true ↔ (chain.block height).height - 1 ≠ lastAcceptedHeight ∧
      ¬ Holds after.1.1.flatten ((chain.block height).height - 1) at wants
    rw [same] at gets wants
    have positive : 0 < height := by
      have higher := fresh.1
      rw [UInt64.lt_iff_toNat_lt] at higher ⊢
      exact Nat.lt_of_le_of_lt (Nat.zero_le _) higher
    have here : HasBlock (after.1.2.write db) height := by
      rw [HasBlock, gets, if_pos rfl]
      rfl
    have before : ∀ other, other ≠ height → (HasBlock (after.1.2.write db) other ↔
        HasBlock (batch.write db) other) := by
      intro other different
      rw [HasBlock, gets, if_neg different]
      exact Iff.rfl
    have absent : ¬ HasBlock (batch.write db) height :=
      fun held => fresh.2 ((synced.stored.holds height).mpr held)
    have own : lastAcceptedHeight.toNat + 1 < height.toNat →
        HasBlock (after.1.2.write db) (height - 1) ∨ after.2 = true := by
      intro above
      by_cases wanted : after.2 = true
      · exact Or.inr wanted
      · left
        rw [wants] at wanted
        have notLast : height - 1 ≠ lastAcceptedHeight := by
          intro last
          have number := congrArg UInt64.toNat last
          rw [toNat_sub_one (UInt64.lt_iff_toNat_lt.mp positive)] at number
          omega
        exact (stored.holds _).mp (not_not.mp (fun unheld => wanted ⟨notLast, unheld⟩))
    refine ⟨⟨stored, ?_, synced.frontier_added below positive here before own⟩, ?_,
      fun _ => ⟨positive, absent, here⟩⟩
    · intro other bytes found
      rw [gets] at found
      split at found
      · rename_i equal
        rw [equal]
        exact ⟨below, (Option.some.inj found).symm⟩
      · exact synced.ofChain other bytes found
    · intro other held
      by_cases equal : other = height
      · rw [equal]
        exact here
      · exact (before other equal).mpr held
  · obtain ⟨unchanged, still⟩ := synced.add_known below fresh
    change after = _ at unchanged
    rw [unchanged]
    exact ⟨still.imp (fun id member => Or.inl member), fun other held => held, by simp⟩

/-- A pass of `process` over a block of the chain, unless the set of missing blocks is a nil
interface. -/
theorem Synced.processBlock {progress : Progress B} {db : MemDb} {height : UInt64}
    (below : height ≤ chain.tip) (callable : progress.missingBlockIDs.callable = true)
    (synced : Synced chain lastAcceptedHeight progress.tree (progress.batch.write db)
      (fun id => id ∈ progress.missingBlockIDs.elements ∨ id = (chain.block height).id)) :
    ∃ after wants,
      BlockStorage.processBlock lastAcceptedHeight progress (chain.block height) =
        some (after, wants) ∧
      Synced chain lastAcceptedHeight after.tree (after.batch.write db)
        (fun id => id ∈ after.missingBlockIDs.elements ∨
          wants = true ∧ id = (chain.block height).parent) ∧
      after.missingBlockIDs.callable = true ∧
      after.missingBlockIDs.elements =
        progress.missingBlockIDs.elements.erase (chain.block height).id ∧
      (∀ other, HasBlock (progress.batch.write db) other →
        HasBlock (after.batch.write db) other) ∧
      (wants = true → 0 < height ∧ ¬ HasBlock (progress.batch.write db) height ∧
        HasBlock (after.batch.write db) height) := by
  obtain ⟨missing, removed⟩ := SetVariable.exists_remove callable (chain.block height).id
  obtain ⟨_, _, callableAfter, elements⟩ := SetVariable.remove_eq_some removed
  obtain ⟨syncedAfter, monotone, wanted⟩ := synced.add below
  rw [← elements] at syncedAfter
  have passed : BlockStorage.processBlock lastAcceptedHeight progress (chain.block height) =
      some (⟨(BlockStorage.add progress.batch progress.tree lastAcceptedHeight
        (chain.block height).height (chain.block height).bytes).1.1,
        (BlockStorage.add progress.batch progress.tree lastAcceptedHeight
          (chain.block height).height (chain.block height).bytes).1.2, missing⟩,
        (BlockStorage.add progress.batch progress.tree lastAcceptedHeight
          (chain.block height).height (chain.block height).bytes).2) := by
    rw [BlockStorage.processBlock, removed]
  exact ⟨_, _, passed, syncedAfter, callableAfter, elements, monotone, wanted⟩

/-- The identifier names a block of the chain that is not stored. -/
def NamesUnstored (chain : Chain parse) (db : MemDb) (id : ID) : Prop :=
  ∃ height, height ≤ chain.tip ∧ id = (chain.block height).id ∧ ¬ HasBlock db height

open Classical in
/-- The ancestors of the chain that are not stored. -/
noncomputable def unstored (chain : Chain parse) (ancestors : GoMap ID Block) (db : MemDb) :
    Finset ID :=
  ancestors.keys.filter (NamesUnstored chain db)

/-- Membership in the ancestors that are on the chain and not stored. -/
theorem mem_unstored {ancestors : GoMap ID Block} {db : MemDb} {id : ID} :
    id ∈ unstored chain ancestors db ↔ id ∈ ancestors.keys ∧ ∃ height, height ≤ chain.tip ∧
      id = (chain.block height).id ∧ ¬ HasBlock db height := by
  classical
  unfold unstored
  rw [Finset.mem_filter]
  exact Iff.rfl

/-- With more blocks stored fewer ancestors are not. -/
theorem unstored_subset {ancestors : GoMap ID Block} {before after : MemDb}
    (monotone : ∀ other, HasBlock before other → HasBlock after other) :
    unstored chain ancestors after ⊆ unstored chain ancestors before := by
  intro id member
  obtain ⟨inside, height, within, same, unheld⟩ := mem_unstored.mp member
  exact mem_unstored.mpr ⟨inside, height, within, same, fun held => unheld (monotone _ held)⟩

/-- When an ancestor is newly stored, strictly fewer of them are not. -/
theorem unstored_card_lt {ancestors : GoMap ID Block} {before after : MemDb} {height : UInt64}
    (below : height ≤ chain.tip) (inside : (chain.block height).id ∈ ancestors.keys)
    (monotone : ∀ other, HasBlock before other → HasBlock after other)
    (absent : ¬ HasBlock before height) (present : HasBlock after height) :
    (unstored chain ancestors after).card < (unstored chain ancestors before).card := by
  have gone : (chain.block height).id ∉ unstored chain ancestors after := by
    intro member
    obtain ⟨_, other, within, same, unheld⟩ := mem_unstored.mp member
    rw [chain.id_injective _ _ below within same] at present
    exact unheld present
  have listed : (chain.block height).id ∈ unstored chain ancestors before :=
    mem_unstored.mpr ⟨inside, height, below, rfl, absent⟩
  have different : unstored chain ancestors after ≠ unstored chain ancestors before := by
    intro same
    rw [same] at gone
    exact gone listed
  exact Finset.card_lt_card
    (Finset.ssubset_iff_subset_ne.mpr ⟨unstored_subset monotone, different⟩)

/-- `process` follows the parents of a block of the chain: with a pass for each ancestor and two
more it ends, and what is wanted afterwards is missing or newly found. -/
theorem Synced.process {ancestors : GoMap ID Block} {db : MemDb}
    (authentic : ∀ id parent, ancestors.lookup id = some parent →
      parent.id = id ∧ chain.Authentic parent)
    (fuel : ℕ) (progress : Progress B) {height : UInt64} (below : height ≤ chain.tip)
    (callable : progress.missingBlockIDs.callable = true)
    (synced : Synced chain lastAcceptedHeight progress.tree (progress.batch.write db)
      (fun id => id ∈ progress.missingBlockIDs.elements ∨ id = (chain.block height).id))
    (enough : (unstored chain ancestors (progress.batch.write db)).card + 1 < fuel ∨
      (chain.block height).id ∈ ancestors.keys ∧
        (unstored chain ancestors (progress.batch.write db)).card < fuel) :
    ∃ after found,
      process lastAcceptedHeight ancestors fuel progress (chain.block height) =
        some (after, found) ∧
      Synced chain lastAcceptedHeight after.tree (after.batch.write db)
        (fun id => id ∈ after.missingBlockIDs.elements ∨ found = some id) ∧
      (∀ id, found = some id → chain.Names id) := by
  induction fuel generalizing progress height with
  | zero => omega
  | succ fuel inductionHypothesis =>
    obtain ⟨after, wants, passed, syncedAfter, callableAfter, _, monotone, wanted⟩ :=
      synced.processBlock below callable
    rw [BlockStorage.process, passed]
    cases wants with
    | true =>
      obtain ⟨positive, absent, present⟩ := wanted rfl
      have parent := chain.parent_block height positive below
      have parentBelow := sub_one_le positive below
      simp only
      cases supplied : ancestors.lookup (chain.block height).parent with
      | none =>
        refine ⟨after, some (chain.block height).parent, rfl, ?_, ?_⟩
        · apply syncedAfter.imp
          rintro id (member | ⟨_, rfl⟩)
          · exact Or.inl member
          · exact Or.inr rfl
        · intro id same
          rw [← Option.some.inj same, parent]
          exact ⟨height - 1, parentBelow, rfl⟩
      | some block =>
        obtain ⟨own, genuine⟩ := authentic _ block supplied
        have exactly : block = chain.block (height - 1) :=
          genuine (height - 1) parentBelow (own.trans parent)
        have key : (chain.block (height - 1)).id ∈ ancestors.keys := by
          rw [← parent, Finmap.mem_keys, Finmap.mem_iff]
          exact ⟨block, supplied⟩
        have smaller : (unstored chain ancestors (after.batch.write db)).card < fuel := by
          rcases enough with more | ⟨inside, more⟩
          · have fewer : unstored chain ancestors (after.batch.write db) ⊆
                unstored chain ancestors (progress.batch.write db) := unstored_subset monotone
            have bound := Finset.card_le_card fewer
            omega
          · have strict := unstored_card_lt below inside monotone absent present
            omega
        have syncedNext : Synced chain lastAcceptedHeight after.tree (after.batch.write db)
            (fun id => id ∈ after.missingBlockIDs.elements ∨
              id = (chain.block (height - 1)).id) := by
          apply syncedAfter.imp
          rintro id (member | ⟨_, rfl⟩)
          · exact Or.inl member
          · exact Or.inr parent
        obtain ⟨last, found, result, final, named⟩ :=
          inductionHypothesis after parentBelow callableAfter syncedNext (Or.inr ⟨key, smaller⟩)
        refine ⟨last, found, ?_, final, named⟩
        rw [exactly]
        exact result
    | false =>
      refine ⟨after, none, rfl, ?_, by simp⟩
      apply syncedAfter.imp
      rintro id (member | ⟨impossible, _⟩)
      · exact Or.inl member
      · cases impossible

end Processing

/-- The walk of `process` only takes blocks out of the missing ones, its first block among them. -/
theorem process_missing {ancestors : GoMap ID Block} (fuel : ℕ) {progress after : Progress B}
    {blk : Block} {found : Option ID}
    (result : process lastAcceptedHeight ancestors fuel progress blk = some (after, found)) :
    progress.missingBlockIDs.callable = true ∧
      after.missingBlockIDs.reading = progress.missingBlockIDs.reading ∧
      after.missingBlockIDs.callable = true ∧
      after.missingBlockIDs.elements ⊆ progress.missingBlockIDs.elements.erase blk.id := by
  induction fuel generalizing progress blk with
  | zero => cases result
  | succ fuel inductionHypothesis =>
    unfold BlockStorage.process processBlock at result
    cases removed : progress.missingBlockIDs.remove blk.id with
    | none =>
      rw [removed] at result
      cases result
    | some missing =>
      obtain ⟨before, reading, callable, elements⟩ := SetVariable.remove_eq_some removed
      rw [removed] at result
      simp only at result
      split at result
      · cases ‹_›
      · rename_i next passed
        obtain ⟨rfl, _⟩ := (Prod.mk.injEq _ _ _ _).mp (Option.some.inj passed)
        obtain ⟨rfl, _⟩ := (Prod.mk.injEq _ _ _ _).mp (Option.some.inj result)
        exact ⟨before, reading, callable, elements.le⟩
      · rename_i next passed
        obtain ⟨rfl, _⟩ := (Prod.mk.injEq _ _ _ _).mp (Option.some.inj passed)
        split at result
        · obtain ⟨rfl, _⟩ := (Prod.mk.injEq _ _ _ _).mp (Option.some.inj result)
          exact ⟨before, reading, callable, elements.le⟩
        · obtain ⟨_, sameReading, callableAfter, subset⟩ := inductionHypothesis result
          refine ⟨before, sameReading.trans reading, callableAfter, ?_⟩
          rw [← elements]
          exact subset.trans (Finset.erase_subset _ _)

/-- On a nil interface `process` panics at once. -/
theorem process_of_not_callable {ancestors : GoMap ID Block} (fuel : ℕ) {progress : Progress B}
    (nil : progress.missingBlockIDs.callable = false) (blk : Block) :
    process lastAcceptedHeight ancestors fuel progress blk = none := by
  cases fuel with
  | zero => rfl
  | succ fuel =>
    have panics : progress.missingBlockIDs.remove blk.id = none := by
      rw [SetVariable.remove, if_neg]
      rw [nil]
      exact Bool.false_ne_true
    rw [BlockStorage.process, processBlock, panics]

/-! ## Finding the missing parents again -/

/-- A stored height whose predecessor is not stored is the lower bound of a range. -/
theorem Stored.lower_of_gap {tree : IntervalTree.Tree B} {db : MemDb}
    (stored : Stored parse tree db)
    {height : UInt64} (held : HasBlock db height) (positive : 0 < height.toNat)
    (gap : ¬ HasBlock db (height - 1)) : ∃ i ∈ tree.flatten, i.lowerBound = height := by
  obtain ⟨i, member, starts, ends⟩ := (stored.holds height).mpr held
  refine ⟨i, member, UInt64.toNat_inj.mp (Nat.le_antisymm starts ?_)⟩
  by_contra lower
  apply gap
  apply (stored.holds _).mp
  refine ⟨i, member, ?_, ?_⟩
  · rw [toNat_sub_one positive]
    have : i.low < height.toNat := Nat.lt_of_not_le lower
    omega
  · rw [toNat_sub_one positive]
    omega

/-- The lower bound of a range is stored. -/
theorem Stored.has_lower {tree : IntervalTree.Tree B} {db : MemDb} (stored : Stored parse tree db)
    {i : Interval} (member : i ∈ tree.flatten) : HasBlock db i.lowerBound :=
  (stored.holds _).mp ⟨i, member, le_refl _, stored.inStep.canonical.1 i member⟩

/-- Each stored block above the next height to execute has its parent stored. -/
def Gapless (lastAcceptedHeight : UInt64) (db : MemDb) : Prop :=
  ∀ height, HasBlock db height → lastAcceptedHeight.toNat + 1 < height.toNat →
    HasBlock db (height - 1)

/-- Without a gap no range begins above the next height to execute. -/
theorem Stored.gapless_iff {tree : IntervalTree.Tree B} {db : MemDb}
    (stored : Stored parse tree db) (room : lastAcceptedHeight < maxUint64) :
    Gapless lastAcceptedHeight db ↔ ∀ i ∈ tree.flatten, i.lowerBound ≤ lastAcceptedHeight + 1 := by
  have next : (lastAcceptedHeight + 1).toNat = lastAcceptedHeight.toNat + 1 := by
    apply toNat_add_one
    rw [UInt64.lt_iff_toNat_lt, maxUint64_toNat] at room
    omega
  constructor
  · intro gapless i member
    by_contra high
    rw [UInt64.not_le, UInt64.lt_iff_toNat_lt, next] at high
    have covered := gapless i.lowerBound (stored.has_lower member) high
    have starts : 0 < i.low := by
      change 0 < i.lowerBound.toNat
      omega
    have inRange := (stored.holds _).mpr covered
    rw [Holds, toNat_sub_one starts] at inRange
    exact not_covers_before stored.inStep.canonical member starts inRange
  · intro low height held above
    by_contra gap
    obtain ⟨i, member, rfl⟩ := stored.lower_of_gap held (by omega) gap
    have bound := low i member
    rw [UInt64.le_iff_toNat_le, next] at bound
    omega

/-- The loop of `getMissingBlockIDs` does nothing at ranges that begin low enough. -/
theorem foldlM_missingParent_of_low (db : MemDb) {lastHeightToFetch : UInt64}
    {intervals : List Interval} (low : ∀ i ∈ intervals, i.lowerBound ≤ lastHeightToFetch)
    (missing : SetVariable ID) :
    intervals.foldlM (missingParent parse db lastHeightToFetch) missing = .ok missing := by
  induction intervals with
  | nil => rfl
  | cons i rest inductionHypothesis =>
    have skipped : missingParent parse db lastHeightToFetch missing i = .ok missing :=
      if_pos (low i (by simp))
    rw [List.foldlM_cons, skipped]
    exact inductionHypothesis (fun other member => low other (by simp [member]))

/-- At a range that begins higher the loop adds the parent of its first block, if it can. -/
theorem missingParent_of_high {db : MemDb} {lastHeightToFetch : UInt64} {i : Interval}
    (ofChain : ∀ height bytes, db.get (makeBlockKey height) = some bytes →
      height ≤ chain.tip ∧ bytes = (chain.block height).bytes)
    (high : ¬ i.lowerBound ≤ lastHeightToFetch) (held : HasBlock db i.lowerBound)
    (missing : SetVariable ID) :
    missingParent parse db lastHeightToFetch missing i =
      (missing.add (chain.block i.lowerBound).parent).elim (.error .panicked) .ok := by
  obtain ⟨bytes, got⟩ := Option.isSome_iff_exists.mp held
  obtain ⟨within, rfl⟩ := ofChain _ bytes got
  unfold missingParent getBlock MemDb.read
  rw [if_neg high, got]
  simp only
  rw [chain.recovers _ within]
  simp only
  cases missing.add (chain.block i.lowerBound).parent with
  | none => rfl
  | some after => rfl

/-- On a nil interface the loop panics at the first range that begins higher. -/
theorem foldlM_missingParent_of_not_callable {db : MemDb} {lastHeightToFetch : UInt64}
    (ofChain : ∀ height bytes, db.get (makeBlockKey height) = some bytes →
      height ≤ chain.tip ∧ bytes = (chain.block height).bytes)
    {intervals : List Interval} (held : ∀ i ∈ intervals, HasBlock db i.lowerBound)
    (high : ¬ ∀ i ∈ intervals, i.lowerBound ≤ lastHeightToFetch) {missing : SetVariable ID}
    (nil : missing.callable = false) :
    intervals.foldlM (missingParent parse db lastHeightToFetch) missing = .error .panicked := by
  induction intervals with
  | nil => exact absurd (by simp) high
  | cons i rest inductionHypothesis =>
    rw [List.foldlM_cons]
    by_cases low : i.lowerBound ≤ lastHeightToFetch
    · have skipped : missingParent parse db lastHeightToFetch missing i = .ok missing := if_pos low
      rw [skipped]
      apply inductionHypothesis (fun other member => held other (by simp [member]))
      rw [List.forall_mem_cons, not_and] at high
      exact high low
    · have panics : missing.add (chain.block i.lowerBound).parent = none := by
        rw [SetVariable.add, if_neg]
        rw [nil]
        exact Bool.false_ne_true
      rw [missingParent_of_high ofChain low (held i (by simp)), panics]
      rfl

/-- The loop of `getMissingBlockIDs` collects the parents at the lower bounds. -/
theorem foldlM_missingParent {db : MemDb}
    (ofChain : ∀ height bytes, db.get (makeBlockKey height) = some bytes →
      height ≤ chain.tip ∧ bytes = (chain.block height).bytes)
    (lastHeightToFetch : UInt64) (intervals : List Interval)
    (held : ∀ i ∈ intervals, HasBlock db i.lowerBound) {missing : SetVariable ID}
    (callable : missing.callable = true) :
    ∃ found, intervals.foldlM (missingParent parse db lastHeightToFetch) missing = .ok found ∧
      found.reading = missing.reading ∧
      ∀ id, id ∈ found.elements ↔ id ∈ missing.elements ∨
        ∃ i ∈ intervals, lastHeightToFetch < i.lowerBound ∧
          id = (chain.block i.lowerBound).parent := by
  induction intervals generalizing missing with
  | nil => exact ⟨missing, rfl, rfl, by simp⟩
  | cons i rest inductionHypothesis =>
    have later : ∀ other ∈ rest, HasBlock db other.lowerBound :=
      fun other member => held other (by simp [member])
    rw [List.foldlM_cons]
    by_cases low : i.lowerBound ≤ lastHeightToFetch
    · have skipped : missingParent parse db lastHeightToFetch missing i = .ok missing := if_pos low
      rw [skipped]
      obtain ⟨found, result, reading, members⟩ := inductionHypothesis later callable
      refine ⟨found, result, reading, fun id => (members id).trans (or_congr_right ?_)⟩
      simp [UInt64.not_lt.mpr low]
    · have added : missing.add (chain.block i.lowerBound).parent = some { missing with
          value := some (insert (chain.block i.lowerBound).parent missing.elements) } :=
        if_pos callable
      rw [missingParent_of_high ofChain low (held i (by simp)), added]
      have still : SetVariable.callable { missing with
          value := some (insert (chain.block i.lowerBound).parent missing.elements) } = true := rfl
      obtain ⟨found, result, reading, members⟩ := inductionHypothesis later still
      refine ⟨found, result, reading, fun id => (members id).trans ?_⟩
      change id ∈ insert _ missing.elements ∨ _ ↔ _
      simp only [Finset.mem_insert, List.exists_mem_cons_iff, UInt64.not_le.mp low, true_and]
      tauto

/-- With plain sets, or without a gap, `getMissingBlockIDs` finds after a restart what is wanted:
the stored blocks are in step with what it returns, all of it names blocks of the chain, and it
finds nothing when nothing was wanted. -/
theorem Synced.getMissingBlockIDs {tree : IntervalTree.Tree B} {db : MemDb} {wanted : ID → Prop}
    (synced : Synced chain lastAcceptedHeight tree db wanted)
    (room : lastAcceptedHeight < maxUint64) {sets : SetReading}
    (returns : sets = .map ∨ Gapless lastAcceptedHeight db) :
    ∃ missing, getMissingBlockIDs sets parse db tree lastAcceptedHeight = .ok missing ∧
      missing.reading = sets ∧
      Synced chain lastAcceptedHeight tree db (· ∈ missing.elements) ∧
      (∀ id ∈ missing.elements, chain.Names id ∧ wanted id) := by
  have held : ∀ i ∈ tree.flatten, HasBlock db i.lowerBound := fun i => synced.stored.has_lower
  by_cases gapless : Gapless lastAcceptedHeight db
  · refine ⟨SetVariable.nil sets, ?_, rfl, ⟨synced.stored, synced.ofChain, ?_⟩, ?_⟩
    · exact foldlM_missingParent_of_low db ((synced.stored.gapless_iff room).mp gapless) _
    · exact fun height here above => Or.inl (gapless height here above)
    · exact fun id impossible => absurd impossible (Finset.notMem_empty id)
  · have callable : (SetVariable.nil sets : SetVariable ID).callable = true :=
      SetVariable.callable_of_map (returns.resolve_right gapless)
    obtain ⟨missing, result, reading, members⟩ := foldlM_missingParent synced.ofChain
      (lastAcceptedHeight + 1) tree.flatten held callable
    have next : (lastAcceptedHeight + 1).toNat = lastAcceptedHeight.toNat + 1 := by
      apply toNat_add_one
      rw [UInt64.lt_iff_toNat_lt, maxUint64_toNat] at room
      omega
    refine ⟨missing, result, reading, ⟨synced.stored, synced.ofChain, ?_⟩, ?_⟩
    · intro height here above
      by_cases stored : HasBlock db (height - 1)
      · exact Or.inl stored
      · right
        obtain ⟨i, member, rfl⟩ := synced.stored.lower_of_gap here (by omega) stored
        obtain ⟨bytes, found⟩ := Option.isSome_iff_exists.mp here
        refine (members _).mpr (Or.inr ⟨i, member, ?_, ?_⟩)
        · rw [UInt64.lt_iff_toNat_lt, next]
          exact above
        · refine (chain.parent_block _ ?_ (synced.ofChain _ bytes found).1).symm
          rw [UInt64.lt_iff_toNat_lt]
          exact Nat.lt_of_le_of_lt (Nat.zero_le _) above
    · intro id member
      obtain ⟨i, inside, above, rfl⟩ := ((members id).mp member).resolve_left
        (Finset.notMem_empty id)
      obtain ⟨bytes, found⟩ := Option.isSome_iff_exists.mp (held i inside)
      have within := (synced.ofChain _ bytes found).1
      rw [UInt64.lt_iff_toNat_lt, next] at above
      have positive : 0 < i.lowerBound := by
        rw [UInt64.lt_iff_toNat_lt]
        exact Nat.lt_of_le_of_lt (Nat.zero_le _) above
      have parent := chain.parent_block i.lowerBound positive within
      refine ⟨⟨i.lowerBound - 1, sub_one_le positive within, parent⟩, ?_⟩
      rcases synced.frontier i.lowerBound (held i inside) above with covered | wanted
      · have starts : 0 < i.low := by
          change 0 < i.lowerBound.toNat
          omega
        have inRange := (synced.stored.holds _).mpr covered
        rw [Holds, toNat_sub_one starts] at inRange
        exact absurd inRange (not_covers_before synced.stored.inStep.canonical inside starts)
      · rw [parent]
        exact wanted

/-- What `getMissingBlockIDs` returns is still unassigned. -/
theorem unassigned_of_getMissingBlockIDs {sets : SetReading} {tree : IntervalTree.Tree B}
    {db : MemDb} {missing : SetVariable ID}
    (found : getMissingBlockIDs sets parse db tree lastAcceptedHeight = .ok missing) :
    missing.Unassigned sets := by
  have loop : ∀ (intervals : List Interval) (before : SetVariable ID), before.Unassigned sets →
      intervals.foldlM (missingParent parse db (lastAcceptedHeight + 1)) before = .ok missing →
      missing.Unassigned sets := by
    intro intervals
    induction intervals with
    | nil =>
      intro before unassigned result
      cases result
      exact unassigned
    | cons i rest inductionHypothesis =>
      intro before unassigned result
      rw [List.foldlM_cons] at result
      cases passed : missingParent parse db (lastAcceptedHeight + 1) before i with
      | error error =>
        rw [passed] at result
        cases result
      | ok after =>
        rw [passed] at result
        refine inductionHypothesis after ?_ result
        unfold missingParent at passed
        split at passed
        · cases passed
          exact unassigned
        · split at passed
          · cases passed
          · split at passed
            · cases passed
            · split at passed
              · cases passed
              · rename_i added
                cases passed
                obtain ⟨callable, reading⟩ := SetVariable.add_eq_some added
                exact unassigned.after_call callable reading
  exact loop tree.flatten _ ⟨rfl, fun _ => rfl⟩ found

/-- At a gap the nil interface panics. -/
theorem Synced.getMissingBlockIDs_panics {tree : IntervalTree.Tree B} {db : MemDb}
    {wanted : ID → Prop} (synced : Synced chain lastAcceptedHeight tree db wanted)
    (room : lastAcceptedHeight < maxUint64) (gap : ¬ Gapless lastAcceptedHeight db) :
    BlockStorage.getMissingBlockIDs .interface parse db tree lastAcceptedHeight =
      .error .panicked := by
  rw [synced.stored.gapless_iff room] at gap
  exact foldlM_missingParent_of_not_callable synced.ofChain
    (fun i => synced.stored.has_lower) gap rfl

/-! ## Executing a gapless chain -/

/-- The blocks are those of the chain at the heights that follow the given one. -/
structure Continues (chain : Chain parse) (start : ℕ) (blocks : List Block) : Prop where
  heights : blocks.map (fun blk => blk.height.toNat) = List.range' (start + 1) blocks.length
  ofChain : ∀ blk ∈ blocks, blk.height ≤ chain.tip ∧ blk = chain.block blk.height

/-- No blocks continue the chain from anywhere. -/
theorem continues_nil (chain : Chain parse) (start : ℕ) : Continues chain start [] :=
  ⟨rfl, by simp⟩

/-- Two continuations, one after the other. -/
theorem Continues.append {start : ℕ} {first second : List Block}
    (one : Continues chain start first) (other : Continues chain (start + first.length) second) :
    Continues chain start (first ++ second) := by
  refine ⟨?_, ?_⟩
  · rw [List.map_append, one.heights, other.heights, List.length_append,
      ← List.range'_append_1]
    congr 2
    omega
  · intro blk member
    rcases List.mem_append.mp member with inside | inside
    · exact one.ofChain blk inside
    · exact other.ofChain blk inside

/-- The last of the blocks that continue the chain. -/
theorem Continues.last {start : UInt64} (within : start ≤ chain.tip) {blocks : List Block}
    (continues : Continues chain start.toNat blocks) :
    let last := blocks.getLastD (chain.block start)
    last.height.toNat = start.toNat + blocks.length ∧ last.height ≤ chain.tip := by
  rcases List.eq_nil_or_concat blocks with rfl | ⟨front, last, rfl⟩
  · simp [chain.height_block start within, within]
  · rw [List.concat_eq_append] at *
    have heights := continues.heights
    have own := continues.ofChain last (by simp)
    rw [List.map_append, List.length_append, List.length_singleton, List.range'_1_concat] at heights
    have final := (List.append_inj heights (by simp)).2
    simp only [List.map_cons, List.map_nil, List.cons.injEq, and_true] at final
    simp only [List.getLastD_concat, List.length_append, List.length_singleton]
    exact ⟨by omega, own.1⟩

/-- Each block that continues the chain has the one before it as its parent. -/
theorem Continues.isChain {start : UInt64} (within : start ≤ chain.tip) {blocks : List Block}
    (continues : Continues chain start.toNat blocks) :
    List.IsChain (fun parent child => child.parent = parent.id ∧
      child.height.toNat = parent.height.toNat + 1) (chain.block start :: blocks) := by
  induction blocks generalizing start with
  | nil => exact List.isChain_singleton _
  | cons blk rest inductionHypothesis =>
    obtain ⟨heights, ofChain⟩ := continues
    rw [List.map_cons, List.length_cons, List.range'_succ, List.cons.injEq] at heights
    obtain ⟨below, exactly⟩ := ofChain blk (by simp)
    have number := heights.1
    have next : blk.height - 1 = start := by
      apply UInt64.toNat_inj.mp
      rw [toNat_sub_one (by omega), number, Nat.add_sub_cancel]
    have positive : 0 < blk.height := by
      rw [UInt64.lt_iff_toNat_lt, number]
      exact Nat.succ_pos _
    refine List.isChain_cons_cons.mpr ⟨⟨?_, ?_⟩, ?_⟩
    · rw [exactly, chain.parent_block blk.height positive below, next]
    · rw [chain.height_block start within, number]
    · rw [exactly]
      apply inductionHypothesis below
      refine ⟨?_, fun other member => ofChain other (by simp [member])⟩
      rw [number]
      exact heights.2

/-- A block that an execution takes out above the last accepted height. -/
theorem mem_executable {tree : IntervalTree.Tree B} {db : MemDb} (stored : Stored parse tree db)
    {entries : List (Bytes × Bytes)} (visited : ∀ entry ∈ entries, entry ∈ getBlockIterator db)
    {blk : Block} :
    blk ∈ executable parse lastAcceptedHeight entries ↔
      ∃ bytes, (makeBlockKey blk.height, bytes) ∈ entries ∧ parse bytes = .ok blk ∧
        lastAcceptedHeight < blk.height := by
  unfold executable
  rw [List.mem_filterMap]
  constructor
  · rintro ⟨⟨key, bytes⟩, member, selected⟩
    obtain ⟨own, recovered, rfl, _⟩ := stored.mem_iterator (visited _ member)
    have read : (parse bytes).toOption = some own := by
      rw [recovered]
      rfl
    change (parse bytes).toOption.filter _ = some blk at selected
    rw [read] at selected
    obtain ⟨same, above⟩ := Option.filter_eq_some_iff.mp selected
    obtain rfl := Option.some.inj same
    exact ⟨bytes, member, recovered, by simpa using above⟩
  · rintro ⟨bytes, member, recovered, above⟩
    refine ⟨_, member, ?_⟩
    have read : (parse bytes).toOption = some blk := by
      rw [recovered]
      rfl
    change (parse bytes).toOption.filter _ = some blk
    rw [read, Option.filter_some, if_pos (by simpa using above)]

/-- A block below one that was visited was visited. -/
theorem visited_below {db : MemDb} {executed left : List (Bytes × Bytes)}
    (split : getBlockIterator db = executed ++ left) {low high : UInt64} {bytes other : Bytes}
    (found : db.get (makeBlockKey low) = some bytes)
    (visited : (makeBlockKey high, other) ∈ executed) (below : low < high) :
    (makeBlockKey low, bytes) ∈ executed := by
  have among : (makeBlockKey low, bytes) ∈ executed ++ left := by
    rw [← split]
    exact (mem_newIteratorWithPrefix _ _ _ _).mpr ⟨own_makeBlockKey low, found⟩
  rcases List.mem_append.mp among with inside | later
  · exact inside
  · have ordered : Ascending (getBlockIterator db) := ascending_newIteratorWithPrefix db [1]
    rw [split] at ordered
    have above := (List.pairwise_append.mp ordered).2.2 _ visited _ later
    exact absurd above (lt_asymm ((makeBlockKey_lt_iff _ _).mpr below))

/-- When nothing is wanted, what an execution accepts continues the accepted chain. -/
theorem Synced.continues {tree : IntervalTree.Tree B} {db : MemDb}
    (synced : Synced chain lastAcceptedHeight tree db (fun _ => False))
    {executed left : List (Bytes × Bytes)} (split : getBlockIterator db = executed ++ left) :
    Continues chain lastAcceptedHeight.toNat (executable parse lastAcceptedHeight executed) := by
  have visited : ∀ entry ∈ executed, entry ∈ getBlockIterator db := by
    intro entry member
    rw [split]
    exact List.mem_append_left left member
  have ordered : Ascending executed := by
    have whole : Ascending (getBlockIterator db) := ascending_newIteratorWithPrefix db [1]
    rw [split] at whole
    exact (List.pairwise_append.mp whole).1
  refine ⟨?_, ?_⟩
  · have gapless := @eq_range'_of_gapless lastAcceptedHeight.toNat
      ((executable parse lastAcceptedHeight executed).map (fun blk => blk.height.toNat)) ?_ ?_
    · rw [List.length_map] at gapless
      exact gapless
    · rw [List.pairwise_map]
      exact (executable_ascending synced.stored lastAcceptedHeight ordered visited).imp
        UInt64.lt_iff_toNat_lt.mp
    · intro n member
      obtain ⟨blk, inside, rfl⟩ := List.mem_map.mp member
      obtain ⟨bytes, taken, _, above⟩ := (mem_executable synced.stored visited).mp inside
      rw [UInt64.lt_iff_toNat_lt] at above
      refine ⟨above, ?_⟩
      by_cases next : blk.height.toNat = lastAcceptedHeight.toNat + 1
      · exact Or.inl next
      · -- The parent is stored, so it was visited before.
        right
        have held : HasBlock db blk.height := by
          rw [HasBlock, ((mem_newIteratorWithPrefix _ _ _ _).mp (visited _ taken)).2]
          rfl
        have number := toNat_sub_one (Nat.lt_of_le_of_lt (Nat.zero_le _) above)
        have parent := (synced.frontier blk.height held (by omega)).resolve_right (fun none => none)
        obtain ⟨found, got⟩ := Option.isSome_iff_exists.mp parent
        have earlier := visited_below split got taken (by rw [UInt64.lt_iff_toNat_lt]; omega)
        obtain ⟨below, recovered, same⟩ := synced.stored.parsed _ found got
        apply List.mem_map.mpr
        refine ⟨below, ?_, by rw [same, number]⟩
        apply (mem_executable synced.stored visited).mpr
        rw [same]
        exact ⟨found, earlier, recovered, by rw [UInt64.lt_iff_toNat_lt]; omega⟩
  · intro blk member
    obtain ⟨bytes, taken, recovered, _⟩ := (mem_executable synced.stored visited).mp member
    have found := ((mem_newIteratorWithPrefix _ _ _ _).mp (visited _ taken)).2
    obtain ⟨within, rfl⟩ := synced.ofChain _ _ found
    rw [chain.recovers _ within] at recovered
    exact ⟨within, (Except.ok.inj recovered).symm⟩

/-- After an execution without an error the blocks that are left continue what was accepted. -/
theorem Synced.after_execution {tree finalTree : IntervalTree.Tree B} {db final : MemDb}
    (synced : Synced chain lastAcceptedHeight tree db (fun _ => False))
    {executed left : List (Bytes × Bytes)} (split : getBlockIterator db = executed ++ left)
    (stored : Stored parse finalTree final) (rest : getBlockIterator final = left)
    {newHeight : UInt64} (reached : newHeight.toNat =
      lastAcceptedHeight.toNat + (executable parse lastAcceptedHeight executed).length) :
    Synced chain newHeight finalTree final (fun _ => False) := by
  have subset : ∀ height bytes, final.get (makeBlockKey height) = some bytes →
      (makeBlockKey height, bytes) ∈ left ∧ db.get (makeBlockKey height) = some bytes := by
    intro height bytes found
    have waiting : (makeBlockKey height, bytes) ∈ left := by
      rw [← rest]
      exact (mem_newIteratorWithPrefix _ _ _ _).mpr ⟨own_makeBlockKey height, found⟩
    have before : (makeBlockKey height, bytes) ∈ getBlockIterator db := by
      rw [split]
      exact List.mem_append_right executed waiting
    exact ⟨waiting, ((mem_newIteratorWithPrefix _ _ _ _).mp before).2⟩
  refine ⟨stored, fun height bytes found => synced.ofChain height bytes (subset _ _ found).2, ?_⟩
  intro height held above
  obtain ⟨bytes, found⟩ := Option.isSome_iff_exists.mp held
  have heldBefore : HasBlock db height := by
    rw [HasBlock, (subset _ _ found).2]
    rfl
  have parent := (synced.frontier height heldBefore (by omega)).resolve_right (fun none => none)
  obtain ⟨parentBytes, got⟩ := Option.isSome_iff_exists.mp parent
  have number := toNat_sub_one (Nat.lt_of_le_of_lt (Nat.zero_le _) above)
  left
  have among : (makeBlockKey (height - 1), parentBytes) ∈ executed ++ left := by
    rw [← split]
    exact (mem_newIteratorWithPrefix _ _ _ _).mpr ⟨own_makeBlockKey _, got⟩
  rcases List.mem_append.mp among with taken | waiting
  · -- Everything that was executed is at most at the height reached.
    exfalso
    have visited : ∀ entry ∈ executed, entry ∈ getBlockIterator db := by
      intro entry member
      rw [split]
      exact List.mem_append_left left member
    obtain ⟨blk, recovered, same⟩ := synced.stored.parsed _ parentBytes got
    have member : blk ∈ executable parse lastAcceptedHeight executed := by
      apply (mem_executable synced.stored visited).mpr
      rw [same]
      exact ⟨parentBytes, taken, recovered, by rw [UInt64.lt_iff_toNat_lt]; omega⟩
    have among := List.mem_map_of_mem (f := fun blk : Block => blk.height.toNat) member
    rw [(synced.continues split).heights, List.mem_range'_1, same, number] at among
    omega
  · rw [← rest] at waiting
    rw [HasBlock, ((mem_newIteratorWithPrefix _ _ _ _).mp waiting).2]
    rfl

end

end AvalancheParallel.Bootstrap.BlockStorage
