import AvalancheParallel.Bootstrap.FetchedHeights
import AvalancheParallel.Ids
import AvalancheParallel.Utils.Collections

/-!
# The blocks fetched during bootstrapping

Fetched blocks are stored under their heights, beside the ranges of the interval tree, until
they are executed. `interval.Add` stores a block and says whether its parent should be
fetched next; `process` follows the parents through the ancestors that a peer supplied;
`getMissingBlockIDs` finds after a restart which parents are still to be fetched.

A block is read back by the parser of the virtual machine, which recovers a block from its
bytes. The invariant `Stored` says that the tree holds exactly the heights under which a
block is stored and that each stored block has the height it is stored under.

The set of missing blocks is a variable of type `set.Set` that is nil at first.
-/

namespace AvalancheParallel.Bootstrap.BlockStorage

open AvalancheParallel.Ids
open AvalancheParallel.RangeLoop (GoMap)
open AvalancheParallel.Database
open AvalancheParallel.ByteOrder
open AvalancheParallel.SortedStore (Ascending)
open AvalancheParallel.SeparatedRanges
open AvalancheParallel.Utils (SetReading SetVariable)
open AvalancheParallel.Bootstrap.IntervalTree

/-- What bootstrapping reads of a `snowman.Block`. -/
structure Block where
  id : ID
  parent : ID
  height : UInt64
  bytes : Bytes
  deriving DecidableEq

/-- `blockPrefix` followed by the height. -/
def makeBlockKey (height : UInt64) : Bytes := 1 :: packUInt64 height

/-- `interval.GetBlock`. -/
def getBlock (db : MemDb) (height : UInt64) : Except DbError Bytes := db.read (makeBlockKey height)

/-- `interval.PutBlock`. -/
def putBlock (batch : BatchOps) (height : UInt64) (bytes : Bytes) : BatchOps :=
  batch.put (makeBlockKey height) bytes

/-- `interval.DeleteBlock`. -/
def deleteBlock (batch : BatchOps) (height : UInt64) : BatchOps :=
  batch.delete (makeBlockKey height)

/-- `interval.GetBlockIterator`. -/
def getBlockIterator (db : MemDb) : List (Bytes × Bytes) := newIteratorWithPrefix db [1]

/-- `interval.GetBlockIteratorWithStart`. -/
def getBlockIteratorWithStart (db : MemDb) (height : UInt64) : List (Bytes × Bytes) :=
  newIteratorWithStartAndPrefix db (makeBlockKey height) [1]

section Calls

variable {B : Type} [BTreeG Pointer B]

/-- `interval.Add`, with whether the parent should be fetched. -/
def add (batch : BatchOps) (tree : IntervalTree.Tree B) (lastAcceptedHeight height : UInt64)
    (blkBytes : Bytes) : (IntervalTree.Tree B × BatchOps) × Bool :=
  if height ≤ lastAcceptedHeight ∨ tree.contains height = true then ((tree, batch), false)
  else
    let after := tree.add (putBlock batch height blkBytes) height
    let nextHeight := height - 1
    (after, decide (nextHeight ≠ lastAcceptedHeight) && !after.1.contains nextHeight)

/-- `interval.Remove`. -/
def remove (batch : BatchOps) (tree : IntervalTree.Tree B) (height : UInt64) :
    IntervalTree.Tree B × BatchOps :=
  tree.remove (deleteBlock batch height) height

/-- The errors of reading the stored blocks, and the panic of a nil set. -/
inductive StorageError (ε : Type*)
  | database (error : DbError)
  | parse (error : ε)
  | panicked

/-- The body of the loop in `getMissingBlockIDs`. -/
def missingParent {ε : Type*} (parse : Bytes → Except ε Block) (db : MemDb)
    (lastHeightToFetch : UInt64) (missingBlocks : SetVariable ID) (i : Interval) :
    Except (StorageError ε) (SetVariable ID) :=
  if i.lowerBound ≤ lastHeightToFetch then .ok missingBlocks
  else
    match getBlock db i.lowerBound with
    | .error error => .error (.database error)
    | .ok blkBytes =>
      match parse blkBytes with
      | .error error => .error (.parse error)
      | .ok blk =>
        match missingBlocks.add blk.parent with
        | none => .error .panicked
        | some missingBlocks => .ok missingBlocks

/-- `getMissingBlockIDs`. -/
def getMissingBlockIDs {ε : Type*} (sets : SetReading) (parse : Bytes → Except ε Block)
    (db : MemDb) (tree : IntervalTree.Tree B) (lastAcceptedHeight : UInt64) :
    Except (StorageError ε) (SetVariable ID) :=
  tree.flatten.foldlM (missingParent parse db (lastAcceptedHeight + 1)) (SetVariable.nil sets)

/-- What `process` changes. -/
structure Progress (B : Type) where
  tree : IntervalTree.Tree B
  batch : BatchOps
  missingBlockIDs : SetVariable ID

/-- One pass through the loop of `process`, with whether the parent is wanted; `none` is a
panic. -/
def processBlock (lastAcceptedHeight : UInt64) (progress : Progress B) (blk : Block) :
    Option (Progress B × Bool) :=
  match progress.missingBlockIDs.remove blk.id with
  | none => none
  | some missingBlockIDs =>
    let after := add progress.batch progress.tree lastAcceptedHeight blk.height blk.bytes
    some (⟨after.1.1, after.1.2, missingBlockIDs⟩, after.2)

/-- `process`: the changes and the newly discovered block to fetch. Each pass but the last stores
a block of `ancestors` that was not stored before; `none` stands for a panic, or for too little
fuel. -/
def process (lastAcceptedHeight : UInt64) (ancestors : GoMap ID Block) :
    ℕ → Progress B → Block → Option (Progress B × Option ID)
  | 0, _, _ => none
  | fuel + 1, progress, blk =>
    match processBlock lastAcceptedHeight progress blk with
    | none => none
    | some (after, false) => some (after, none)
    | some (after, true) =>
      match ancestors.lookup blk.parent with
      | none => some (after, some blk.parent)
      | some parent => process lastAcceptedHeight ancestors fuel after parent

end Calls

/-! ## The keys of blocks -/

/-- Blocks of different heights have different keys. -/
theorem makeBlockKey_injective : Function.Injective makeBlockKey := by
  intro first second same
  exact packUInt64_injective (List.cons.inj same).2

/-- The keys of the blocks are ordered as their heights. -/
theorem makeBlockKey_lt_iff (first second : UInt64) :
    makeBlockKey first < makeBlockKey second ↔ first < second := by
  change [1] ++ packUInt64 first < [1] ++ packUInt64 second ↔ _
  rw [append_lt_append_iff]
  exact bigEndian64_lt_iff first second

/-- Keys of blocks are not keys of ranges. -/
theorem not_interval_of_block {key : Bytes} (own : [1] <+: key) : ¬ [0] <+: key := by
  rintro ⟨rest, rfl⟩
  obtain ⟨others, same⟩ := own
  have first := (List.cons.inj same).1
  exact absurd first (by decide)

/-- The keys of the blocks begin with their own byte. -/
theorem own_makeBlockKey (height : UInt64) : [1] <+: makeBlockKey height :=
  ⟨packUInt64 height, rfl⟩

section

variable {ε : Type*} (parse : Bytes → Except ε Block) {B : Type} [BTreeG Pointer B]

/-- The tree is in step with the database, the heights it holds are those under which a block is
stored, and a stored block has its height. -/
structure Stored (tree : IntervalTree.Tree B) (db : MemDb) : Prop where
  inStep : InStep tree db
  keys : ∀ key value, [1] <+: key → db.get key = some value → ∃ height, key = makeBlockKey height
  holds : ∀ height, Holds tree.flatten height ↔ (db.get (makeBlockKey height)).isSome
  parsed : ∀ height bytes, db.get (makeBlockKey height) = some bytes →
    ∃ blk, parse bytes = .ok blk ∧ blk.height = height

variable {parse}

/-- Blocks are stored for every tree with the same ranges and the same count. -/
theorem Stored.congr {tree other : IntervalTree.Tree B} {db : MemDb}
    (stored : Stored parse tree db) (ranges : other.flatten = tree.flatten)
    (count : other.numKnownHeights = tree.numKnownHeights) : Stored parse other db where
  inStep := stored.inStep.congr ranges count
  keys := stored.keys
  holds height := by
    rw [ranges]
    exact stored.holds height
  parsed := stored.parsed

/-- A tree is in step with every database that agrees on the keys of ranges. -/
theorem inStep_congr {tree : IntervalTree.Tree B} {first second : MemDb}
    (inStep : InStep tree first)
    (same : ∀ key, [0] <+: key → second.get key = first.get key) : InStep tree second := by
  refine ⟨inStep.canonical, inStep.counted, ?_⟩
  intro key value own
  rw [same key own]
  exact inStep.mirrors key value own

/-- No key of a block is a key of an interval. -/
theorem makeBlockKey_not_interval (height : UInt64) : ¬ [0] <+: makeBlockKey height :=
  not_interval_of_block (own_makeBlockKey height)

/-- Blocks are stored under another set of heights, with the tree in step. -/
theorem Stored.of_leaves {before : BatchOps} {db : MemDb} {covered : ℕ → Prop}
    {counted : UInt64} {after : IntervalTree.Tree B × BatchOps}
    (leaves : Leaves covered counted before db after)
    (keys : ∀ key value, [1] <+: key → (before.write db).get key = some value →
      ∃ height, key = makeBlockKey height)
    (holds : ∀ height : UInt64, covered height.toNat ↔
      ((before.write db).get (makeBlockKey height)).isSome)
    (parsed : ∀ height bytes, (before.write db).get (makeBlockKey height) = some bytes →
      ∃ blk, parse bytes = .ok blk ∧ blk.height = height) :
    Stored parse after.1 (after.2.write db) where
  inStep := leaves.inStep
  keys key value own found := by
    rw [leaves.foreign key (not_interval_of_block own)] at found
    exact keys key value own found
  holds height := by
    rw [leaves.foreign _ (makeBlockKey_not_interval height)]
    exact (leaves.covers _).trans (holds height)
  parsed height bytes found := by
    rw [leaves.foreign _ (makeBlockKey_not_interval height)] at found
    exact parsed height bytes found

/-- The block is new: its height is neither accepted nor stored. -/
def Fresh (tree : IntervalTree.Tree B) (lastAcceptedHeight height : UInt64) : Prop :=
  lastAcceptedHeight < height ∧ ¬ Holds tree.flatten height

variable [LawfulBTreeG Pointer B]

/-- Nothing is stored at first. -/
theorem stored_empty (parse : Bytes → Except ε Block) :
    Stored parse (Tree.empty : IntervalTree.Tree B)
      (BatchOps.new.write SortedStore.Store.empty) := by
  refine ⟨inStep_empty, ?_, ?_, ?_⟩
  · intro key value _ found
    simp at found
  · intro height
    simp [Holds]
  · intro height bytes found
    simp at found

/-- `interval.Add` of a block that is not new changes nothing. -/
theorem add_of_not_fresh {tree : IntervalTree.Tree B} (canonical : Canonical tree.flatten)
    (batch : BatchOps) {lastAcceptedHeight height : UInt64} (blkBytes : Bytes)
    (known : ¬ Fresh tree lastAcceptedHeight height) :
    add batch tree lastAcceptedHeight height blkBytes = ((tree, batch), false) := by
  unfold add
  rw [if_pos]
  rw [Tree.contains_iff canonical]
  by_cases held : Holds tree.flatten height
  · exact Or.inr held
  · exact Or.inl (UInt64.not_lt.mp (fun above => known ⟨above, held⟩))

/-- `interval.Add` of a new block. -/
theorem add_of_fresh {tree : IntervalTree.Tree B} {batch : BatchOps} {db : MemDb}
    (stored : Stored parse tree (batch.write db)) {lastAcceptedHeight : UInt64} {blk : Block}
    (recovered : parse blk.bytes = .ok blk) (fresh : Fresh tree lastAcceptedHeight blk.height) :
    let after := add batch tree lastAcceptedHeight blk.height blk.bytes
    Stored parse after.1.1 (after.1.2.write db) ∧
      (∀ height, (after.1.2.write db).get (makeBlockKey height) =
        if height = blk.height then some blk.bytes
        else (batch.write db).get (makeBlockKey height)) ∧
      (after.2 = true ↔ blk.height - 1 ≠ lastAcceptedHeight ∧
        ¬ Holds after.1.1.flatten (blk.height - 1)) := by
  obtain ⟨above, absent⟩ := fresh
  have guard : ¬ (blk.height ≤ lastAcceptedHeight ∨ tree.contains blk.height = true) := by
    rw [Tree.contains_iff stored.inStep.canonical]
    exact not_or.mpr ⟨UInt64.not_le.mpr above, absent⟩
  have written : ∀ key, ((putBlock batch blk.height blk.bytes).write db).get key =
      if key = makeBlockKey blk.height then some blk.bytes else (batch.write db).get key :=
    fun key => get_write_put ..
  have writtenBlock : ∀ height, ((putBlock batch blk.height blk.bytes).write db).get
      (makeBlockKey height) = if height = blk.height then some blk.bytes
        else (batch.write db).get (makeBlockKey height) := by
    intro height
    rw [written]
    by_cases same : height = blk.height
    · rw [if_pos (congrArg makeBlockKey same), if_pos same]
    · rw [if_neg (fun equal => same (makeBlockKey_injective equal)), if_neg same]
  have inStep : InStep tree ((putBlock batch blk.height blk.bytes).write db) := by
    apply inStep_congr stored.inStep
    intro key own
    rw [written, if_neg]
    rintro rfl
    exact makeBlockKey_not_interval _ own
  have leaves := inStep.add absent
  have after : add batch tree lastAcceptedHeight blk.height blk.bytes =
      (tree.add (putBlock batch blk.height blk.bytes) blk.height,
        decide (blk.height - 1 ≠ lastAcceptedHeight) &&
          !(tree.add (putBlock batch blk.height blk.bytes) blk.height).1.contains
            (blk.height - 1)) := by
    unfold add
    rw [if_neg guard]
  simp only [after]
  refine ⟨?_, ?_, ?_⟩
  · apply Stored.of_leaves leaves
    · intro key value own found
      rw [written] at found
      split at found
      · exact ⟨blk.height, by assumption⟩
      · exact stored.keys key value own found
    · intro height
      rw [writtenBlock, UInt64.toNat_inj]
      by_cases same : height = blk.height
      · simp [same]
      · rw [if_neg same, or_iff_right same]
        exact stored.holds height
    · intro height bytes found
      rw [writtenBlock] at found
      split at found
      · rename_i same
        exact ⟨blk, by rw [← Option.some.inj found]; exact recovered, same.symm⟩
      · exact stored.parsed height bytes found
  · intro height
    rw [leaves.foreign _ (makeBlockKey_not_interval height), writtenBlock]
  · rw [Bool.and_eq_true, decide_eq_true_iff, Bool.not_eq_true', ← Bool.not_eq_true,
      Tree.contains_iff leaves.inStep.canonical]

/-- `interval.Remove` of a stored block. -/
theorem remove_of_stored {tree : IntervalTree.Tree B} {batch : BatchOps} {db : MemDb}
    (stored : Stored parse tree (batch.write db)) {height : UInt64}
    (held : Holds tree.flatten height) :
    let after := remove batch tree height
    Stored parse after.1 (after.2.write db) ∧
      (∀ key, [1] <+: key → (after.2.write db).get key =
        if key = makeBlockKey height then none else (batch.write db).get key) := by
  have deleted : ∀ key, ((deleteBlock batch height).write db).get key =
      if key = makeBlockKey height then none else (batch.write db).get key :=
    fun key => get_write_delete ..
  have inStep : InStep tree ((deleteBlock batch height).write db) := by
    apply inStep_congr stored.inStep
    intro key own
    rw [deleted, if_neg]
    rintro rfl
    exact makeBlockKey_not_interval _ own
  have leaves := inStep.remove held
  refine ⟨?_, ?_⟩
  · apply Stored.of_leaves leaves
    · intro key value own found
      rw [deleted] at found
      split at found
      · cases found
      · exact stored.keys key value own found
    · intro other
      rw [deleted, ne_eq, UInt64.toNat_inj]
      by_cases same : other = height
      · simp [same]
      · rw [if_neg (fun equal => same (makeBlockKey_injective equal)), and_iff_right same]
        exact stored.holds other
    · intro other bytes found
      rw [deleted] at found
      split at found
      · cases found
      · exact stored.parsed other bytes found
  · intro key own
    rw [remove, leaves.foreign key (not_interval_of_block own), deleted]

end

end AvalancheParallel.Bootstrap.BlockStorage
