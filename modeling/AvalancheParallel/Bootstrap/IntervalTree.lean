import AvalancheParallel.Database.Batch
import AvalancheParallel.Foundation.BTree
import AvalancheParallel.Foundation.SeparatedRanges

/-!
# The interval tree of fetched heights

`interval.Tree` holds the set of block heights that were fetched during bootstrapping as
the maximal ranges of consecutive heights, ordered by their upper bounds. Adding a height
grows a range, joins two or starts a new one; removing a height shrinks a range, drops it
or cuts it in two. Each change of the ranges is recorded in a batch under the key of the
upper bound, so that the ranges can be read back from the database.

The ranges are kept in a `btree.BTreeG` of pointers, and the code writes through these
pointers. The package of `BTreeG` is not part of the repository: the model has any type with
its calls in its place, and the results need what the calls promise. What the pointers point to
is part of the tree.
-/

namespace AvalancheParallel.Bootstrap.IntervalTree

open AvalancheParallel.Database
open AvalancheParallel.ByteOrder
open AvalancheParallel.SortedStore (Op replay get_apply)
open AvalancheParallel.BTreeG (ascend Compares InOrder)
open AvalancheParallel.SeparatedRanges

/-- `math.MaxUint64`. -/
def maxUint64 : UInt64 := 18446744073709551615

/-- `interval.Interval`: the heights from the lower to the upper bound, both included. -/
structure Interval where
  lowerBound : UInt64
  upperBound : UInt64
  deriving DecidableEq, Repr

namespace Interval

/-- `Interval.Less`. -/
def less (i other : Interval) : Bool := decide (i.upperBound < other.upperBound)

/-- `Interval.Contains`, of a reference that is not nil. -/
def contains (i : Interval) (height : UInt64) : Bool :=
  decide (i.lowerBound ≤ height) && decide (height ≤ i.upperBound)

/-- `Interval.AdjacentToLowerBound`, of a reference that is not nil. -/
def adjacentToLowerBound (i : Interval) (height : UInt64) : Bool :=
  decide (height < maxUint64) && decide (height + 1 = i.lowerBound)

/-- `Interval.AdjacentToUpperBound`, of a reference that is not nil. -/
def adjacentToUpperBound (i : Interval) (height : UInt64) : Bool :=
  decide (i.upperBound < maxUint64) && decide (i.upperBound + 1 = height)

/-- The bounds as numbers. -/
def low (i : Interval) : ℕ := i.lowerBound.toNat

def high (i : Interval) : ℕ := i.upperBound.toNat

end Interval

/-- `intervalPrefix` followed by the upper bound. -/
def makeIntervalKey (upperBound : UInt64) : Bytes := 0 :: packUInt64 upperBound

/-- `interval.PutInterval`. -/
def putInterval (batch : BatchOps) (upperBound lowerBound : UInt64) : BatchOps :=
  batch.put (makeIntervalKey upperBound) (packUInt64 lowerBound)

/-- `interval.DeleteInterval`. -/
def deleteInterval (batch : BatchOps) (upperBound : UInt64) : BatchOps :=
  batch.delete (makeIntervalKey upperBound)

/-- The errors of reading the persisted intervals. -/
inductive StateError
  | invalidKeyLength
  | database (error : DbError)
  deriving DecidableEq, Repr

/-- The body of the loop in `GetIntervals`. -/
def readInterval (entry : Bytes × Bytes) : Except StateError Interval :=
  if entry.1.length < 1 then .error .invalidKeyLength
  else
    match parseUInt64 (entry.1.drop 1) with
    | .error error => .error (.database error)
    | .ok upperBound =>
      match parseUInt64 entry.2 with
      | .error error => .error (.database error)
      | .ok lowerBound => .ok ⟨lowerBound, upperBound⟩

/-- `interval.GetIntervals`. -/
def getIntervals (db : MemDb) : Except StateError (List Interval) :=
  (newIteratorWithPrefix db [0]).mapM readInterval

/-- A pointer to an interval. -/
abbrev Pointer := ℕ

/-- `treeDegree`. -/
def treeDegree : ℕ := 2

/-- `interval.Tree`, with the intervals that the pointers point to. -/
structure Tree (B : Type) where
  knownHeights : B
  intervals : Pointer → Interval
  numKnownHeights : UInt64

namespace Tree

variable {B : Type} [BTreeG Pointer B]

/-- A tree without heights. -/
def empty : Tree B := ⟨BTreeG.newG treeDegree, fun _ => ⟨0, 0⟩, 0⟩

/-- `(*Interval).Less`, the comparison of the tree. -/
def less (tree : Tree B) (i other : Pointer) : Bool :=
  (tree.intervals i).less (tree.intervals other)

/-- What a pointer points to is overwritten. -/
def write (tree : Tree B) (pointer : Pointer) (i : Interval) : Tree B :=
  { tree with intervals := Function.update tree.intervals pointer i }

/-- A pointer that is not in the tree. -/
def fresh (tree : Tree B) : Pointer := (ascend tree.knownHeights).foldr (fun p q => p + q) 1

/-- `AscendGreaterOrEqual`, stopped at the first item. -/
def firstFrom (tree : Tree B) (pivot : Pointer) : Option Pointer :=
  (BTreeG.ascendGreaterOrEqual tree.less pivot tree.knownHeights).head?

/-- `DescendLessOrEqual`, stopped at the first item. -/
def lastUpTo (tree : Tree B) (pivot : Pointer) : Option Pointer :=
  (BTreeG.descendLessOrEqual tree.less pivot tree.knownHeights).head?

/-- `ReplaceOrInsert`. -/
def replaceOrInsert (tree : Tree B) (item : Pointer) : Tree B :=
  { tree with knownHeights := BTreeG.replaceOrInsert tree.less item tree.knownHeights }

/-- `Delete`. -/
def delete (tree : Tree B) (item : Pointer) : Tree B :=
  { tree with knownHeights := BTreeG.delete tree.less item tree.knownHeights }

/-- The body of the loop in `NewTree`. -/
def load (tree : Tree B) (i : Interval) : Tree B :=
  { (tree.write tree.fresh i).replaceOrInsert tree.fresh with
    numKnownHeights := tree.numKnownHeights + (i.upperBound - i.lowerBound + 1) }

/-- `interval.NewTree`. -/
def newTree (db : MemDb) : Except StateError (Tree B) :=
  match getIntervals db with
  | .error error => .error error
  | .ok intervals => .ok (intervals.foldl load empty)

/-- The switch of `Tree.Add`, with the neighbours that touch the height. -/
def addBetween (t : Tree B) (batch : BatchOps) (height : UInt64) (newInterval : Pointer) :
    Option Pointer → Option Pointer → Tree B × BatchOps
  | some upper, some lower =>
    let i := t.intervals upper
    let j := t.intervals lower
    ((t.write upper ⟨j.lowerBound, i.upperBound⟩).delete lower,
      putInterval (deleteInterval batch j.upperBound) i.upperBound j.lowerBound)
  | some upper, none =>
    let i := t.intervals upper
    (t.write upper ⟨height, i.upperBound⟩, putInterval batch i.upperBound height)
  | none, some lower =>
    let j := t.intervals lower
    (t.write lower ⟨j.lowerBound, height⟩,
      putInterval (deleteInterval batch j.upperBound) height j.lowerBound)
  | none, none => (t.replaceOrInsert newInterval, putInterval batch height height)

/-- `Tree.Add`. -/
def add (tree : Tree B) (batch : BatchOps) (height : UInt64) : Tree B × BatchOps :=
  let newInterval := tree.fresh
  let t := tree.write newInterval ⟨height, height⟩
  let upper := t.firstFrom newInterval
  if upper.any (fun i => (t.intervals i).contains height) then (tree, batch)
  else
    let lower := t.lastUpTo newInterval
    { t with numKnownHeights := t.numKnownHeights + 1 }.addBetween batch height newInterval
      (upper.filter (fun i => (t.intervals i).adjacentToLowerBound height))
      (lower.filter (fun i => (t.intervals i).adjacentToUpperBound height))

/-- The switch of `Tree.Remove`. -/
def removeFrom (t : Tree B) (batch : BatchOps) (height : UInt64) (newInterval higher : Pointer) :
    Tree B × BatchOps :=
  let i := t.intervals higher
  if i.lowerBound = i.upperBound then (t.delete higher, deleteInterval batch i.upperBound)
  else if i.lowerBound = height then
    (t.write higher ⟨i.lowerBound + 1, i.upperBound⟩,
      putInterval batch i.upperBound (i.lowerBound + 1))
  else if i.upperBound = height then
    (t.write higher ⟨i.lowerBound, i.upperBound - 1⟩,
      putInterval (deleteInterval batch i.upperBound) (i.upperBound - 1) i.lowerBound)
  else
    let t := (t.write newInterval ⟨i.lowerBound, height - 1⟩).replaceOrInsert newInterval
    (t.write higher ⟨height + 1, i.upperBound⟩,
      putInterval (putInterval batch (height - 1) i.lowerBound) i.upperBound (height + 1))

/-- `Tree.Remove`. -/
def remove (tree : Tree B) (batch : BatchOps) (height : UInt64) : Tree B × BatchOps :=
  let newInterval := tree.fresh
  let t := tree.write newInterval ⟨height, height⟩
  match (t.firstFrom newInterval).filter (fun i => (t.intervals i).contains height) with
  | none => (tree, batch)
  | some higher =>
    { t with numKnownHeights := t.numKnownHeights - 1 }.removeFrom batch height newInterval higher

/-- `Tree.Contains`. -/
def contains (tree : Tree B) (height : UInt64) : Bool :=
  let i := tree.fresh
  let t := tree.write i ⟨height, height⟩
  (t.firstFrom i).any (fun higher => (t.intervals higher).contains height)

/-- `Tree.Flatten`. -/
def flatten (tree : Tree B) : List Interval := (ascend tree.knownHeights).map tree.intervals

/-- `Tree.Len`: the number of heights, as a 64-bit word. -/
def len (tree : Tree B) : UInt64 := tree.numKnownHeights

end Tree

/-! ## Bounds as numbers -/

/-- Adding one below the maximum. -/
theorem toNat_add_one {value : UInt64} (room : value.toNat + 1 < 2 ^ 64) :
    (value + 1).toNat = value.toNat + 1 := by
  rw [UInt64.toNat_add]
  exact Nat.mod_eq_of_lt room

/-- Subtracting one from a positive number. -/
theorem toNat_sub_one {value : UInt64} (positive : 0 < value.toNat) :
    (value - 1).toNat = value.toNat - 1 := by
  apply UInt64.toNat_sub_of_le
  rw [UInt64.le_iff_toNat_le]
  exact positive

/-- The greatest height as a number. -/
theorem maxUint64_toNat : maxUint64.toNat = 2 ^ 64 - 1 := rfl

namespace Interval

/-- `Less` compares the upper bounds. -/
theorem less_iff (i other : Interval) : i.less other = true ↔ i.high < other.high := by
  rw [less, decide_eq_true_iff, UInt64.lt_iff_toNat_lt]
  exact Iff.rfl

/-- `Less` fails when the upper bound is not smaller. -/
theorem less_eq_false_iff (i other : Interval) : i.less other = false ↔ other.high ≤ i.high := by
  rw [Bool.eq_false_iff, ne_eq, less_iff, Nat.not_lt]

/-- `Contains` in terms of the bounds. -/
theorem contains_iff (i : Interval) (height : UInt64) :
    i.contains height = true ↔ i.low ≤ height.toNat ∧ height.toNat ≤ i.high := by
  rw [contains, Bool.and_eq_true, decide_eq_true_iff, decide_eq_true_iff,
    UInt64.le_iff_toNat_le, UInt64.le_iff_toNat_le]
  exact Iff.rfl

/-- `AdjacentToLowerBound` is true just below the interval. -/
theorem adjacentToLowerBound_iff (i : Interval) (height : UInt64) :
    i.adjacentToLowerBound height = true ↔ height.toNat + 1 = i.low := by
  have bound : i.lowerBound.toNat < 2 ^ 64 := i.lowerBound.toNat_lt
  rw [adjacentToLowerBound, Bool.and_eq_true, decide_eq_true_iff, decide_eq_true_iff,
    UInt64.lt_iff_toNat_lt, ← UInt64.toNat_inj, UInt64.toNat_add, maxUint64_toNat, low]
  simp only [UInt64.reduceToNat]
  omega

/-- `AdjacentToUpperBound` is true just above the interval. -/
theorem adjacentToUpperBound_iff (i : Interval) (height : UInt64) :
    i.adjacentToUpperBound height = true ↔ i.high + 1 = height.toNat := by
  have bound : height.toNat < 2 ^ 64 := height.toNat_lt
  rw [adjacentToUpperBound, Bool.and_eq_true, decide_eq_true_iff, decide_eq_true_iff,
    UInt64.lt_iff_toNat_lt, ← UInt64.toNat_inj, UInt64.toNat_add, maxUint64_toNat, high]
  simp only [UInt64.reduceToNat]
  omega

/-- The upper bound is a 64-bit number. -/
theorem high_lt (i : Interval) : i.high < 2 ^ 64 := i.upperBound.toNat_lt

end Interval

/-- The ranges are the maximal runs of the heights they cover. -/
abbrev Canonical (known : List Interval) : Prop := Separated Interval.low Interval.high known

/-- The height is in one of the ranges. -/
abbrev Holds (known : List Interval) (height : UInt64) : Prop :=
  Covers Interval.low Interval.high known height.toNat

/-- Canonical ranges are in the order of the tree. -/
theorem Canonical.ordered {known : List Interval} (canonical : Canonical known) :
    known.Pairwise (fun first second => first.less second = true) := by
  induction known with
  | nil => exact List.Pairwise.nil
  | cons i rest inductionHypothesis =>
    obtain ⟨_, before, later⟩ := separated_cons.mp canonical
    apply List.pairwise_cons.mpr
    refine ⟨?_, inductionHypothesis later⟩
    intro other member
    have gap := before other member
    have nonempty := later.1 other member
    rw [Interval.less_iff]
    omega

/-- Canonical ranges have distinct upper bounds. -/
theorem Canonical.unique {known : List Interval} (canonical : Canonical known) {i j : Interval}
    (member : i ∈ known) (alsoMember : j ∈ known) (same : i.upperBound = j.upperBound) : i = j := by
  induction known with
  | nil => exact absurd member List.not_mem_nil
  | cons first rest inductionHypothesis =>
    obtain ⟨_, before, later⟩ := separated_cons.mp canonical
    have equal : i.high = j.high := congrArg UInt64.toNat same
    rcases List.mem_cons.mp member with rfl | inside
    · rcases List.mem_cons.mp alsoMember with rfl | alsoInside
      · rfl
      · have gap := before j alsoInside
        have nonempty := later.1 j alsoInside
        omega
    · rcases List.mem_cons.mp alsoMember with rfl | alsoInside
      · have gap := before i inside
        have nonempty := later.1 i inside
        omega
      · exact inductionHypothesis later inside alsoInside

/-- Canonical ranges around one of them end below and above it. -/
theorem Canonical.around {front back : List Interval} {i : Interval}
    (canonical : Canonical (front ++ i :: back)) :
    (∀ other ∈ front, other.high < i.high) ∧ ∀ other ∈ back, i.high < other.high := by
  obtain ⟨_, later, between⟩ := List.pairwise_append.mp canonical.ordered
  refine ⟨?_, ?_⟩
  · intro other member
    exact (Interval.less_iff _ _).mp (between other member i (by simp))
  · intro other member
    exact (Interval.less_iff _ _).mp ((List.pairwise_cons.mp later).1 other member)

/-! ## The pointers of the tree -/

namespace Tree

variable {B : Type}

/-- The comparison of upper bounds is one that a search tree can use. -/
theorem compares (tree : Tree B) : Compares tree.less where
  irreflexive i := (Interval.less_eq_false_iff _ _).mpr (Nat.le_refl _)
  transitive i j k := by
    rw [less, less, less, Interval.less_iff, Interval.less_iff, Interval.less_iff]
    exact Nat.lt_trans
  between i j k := by
    rw [less, less, less, Interval.less_iff, Interval.less_iff, Interval.less_iff]
    omega

/-- The tree compares pointers by the intervals behind them. -/
theorem less_iff (tree : Tree B) (i j : Pointer) :
    tree.less i j = true ↔ (tree.intervals i).high < (tree.intervals j).high :=
  Interval.less_iff _ _

/-- The comparison of pointers fails when the first upper bound is not smaller. -/
theorem less_eq_false_iff (tree : Tree B) (i j : Pointer) :
    tree.less i j = false ↔ (tree.intervals j).high ≤ (tree.intervals i).high :=
  Interval.less_eq_false_iff _ _

/-- What is written through a pointer is read through it. -/
@[simp] theorem write_own (tree : Tree B) (pointer : Pointer) (i : Interval) :
    (tree.write pointer i).intervals pointer = i := Function.update_self ..

/-- Other pointers still point to what they did. -/
theorem map_write_of_notMem (tree : Tree B) {pointer : Pointer} (i : Interval)
    {pointers : List Pointer} (absent : pointer ∉ pointers) :
    pointers.map (tree.write pointer i).intervals = pointers.map tree.intervals := by
  apply List.map_congr_left
  intro other member
  apply Function.update_of_ne
  rintro rfl
  exact absent member

/-- The comparison stays when the upper bound does. -/
theorem less_write (tree : Tree B) {pointer : Pointer} {i : Interval}
    (same : i.upperBound = (tree.intervals pointer).upperBound) :
    (tree.write pointer i).less = tree.less := by
  have kept : ∀ p, ((tree.write pointer i).intervals p).upperBound =
      (tree.intervals p).upperBound := by
    intro p
    by_cases own : p = pointer
    · rw [own, write_own, same]
    · have other : (tree.write pointer i).intervals p = tree.intervals p :=
        Function.update_of_ne own _ _
      rw [other]
  funext p q
  rw [less, less, Interval.less, Interval.less, kept, kept]

variable [BTreeG Pointer B] {tree : Tree B} {front back : List Pointer}

/-- A new pointer is not in the tree. -/
theorem fresh_notMem (tree : Tree B) : tree.fresh ∉ ascend tree.knownHeights := by
  have above : ∀ (pointers : List ℕ), ∀ p ∈ pointers,
      p < pointers.foldr (fun p q => p + q) 1 := by
    intro pointers
    induction pointers with
    | nil => exact fun p impossible => absurd impossible List.not_mem_nil
    | cons first rest inductionHypothesis =>
      intro p member
      have positive : 0 < rest.foldr (fun p q => p + q) 1 := by
        cases rest with
        | nil => exact Nat.one_pos
        | cons second others =>
          exact Nat.lt_of_le_of_lt (Nat.zero_le _) (inductionHypothesis second (by simp))
      rw [List.foldr_cons]
      rcases List.mem_cons.mp member with rfl | later
      · omega
      · have below := inductionHypothesis p later
        omega
  exact fun member => Nat.lt_irrefl _ (above _ _ member)

/-- The pointers are in the order of the canonical ranges they point to. -/
theorem inOrder (canonical : Canonical tree.flatten) :
    InOrder tree.less (ascend tree.knownHeights) := List.pairwise_map.mp canonical.ordered

/-- Writing through a pointer that is not in the tree leaves the ranges as they are. -/
theorem flatten_write_of_notMem {pointer : Pointer}
    (absent : pointer ∉ ascend tree.knownHeights) (i : Interval) :
    (tree.write pointer i).flatten = tree.flatten := map_write_of_notMem tree i absent

/-- Writing through a pointer of the tree changes the range where it stands. -/
theorem flatten_write {pointer : Pointer}
    (cut : ascend tree.knownHeights = front ++ pointer :: back)
    (nodup : (ascend tree.knownHeights).Nodup) (i : Interval) :
    (tree.write pointer i).flatten =
      front.map tree.intervals ++ [i] ++ back.map tree.intervals := by
  rw [cut, List.nodup_middle, List.nodup_cons, List.mem_append, not_or] at nodup
  have unfolded : (tree.write pointer i).flatten =
      (front ++ pointer :: back).map (tree.write pointer i).intervals := congrArg _ cut
  rw [unfolded, List.map_append, List.map_cons, map_write_of_notMem tree i nodup.1.1,
    map_write_of_notMem tree i nodup.1.2, write_own, List.append_assoc, List.singleton_append]

variable [LawfulBTreeG Pointer B]

/-- The pointers cut at one of them or at another pointer, where `AscendGreaterOrEqual` begins. -/
theorem exists_cut (canonical : Canonical tree.flatten) (pivot : Pointer) :
    ∃ front back, ascend tree.knownHeights = front ++ back ∧
      (∀ p ∈ front, (tree.intervals p).high < (tree.intervals pivot).high) ∧
      (∀ p ∈ back, (tree.intervals pivot).high ≤ (tree.intervals p).high) ∧
      tree.firstFrom pivot = back.head? := by
  have ordered := inOrder canonical
  obtain ⟨front, back, cut, low, high⟩ := ordered.exists_cut tree.compares pivot
  have first : tree.firstFrom pivot = back.head? :=
    BTreeG.head?_ascendGreaterOrEqual tree.compares ordered cut low high
  refine ⟨front, back, cut, ?_, ?_, first⟩
  · intro p member
    exact (less_iff tree p pivot).mp (low p member)
  · intro p member
    exact (less_eq_false_iff tree p pivot).mp (high p member)

/-- `DescendLessOrEqual` begins with the last pointer to a range that does not end above. -/
theorem lastUpTo_cut (canonical : Canonical tree.flatten)
    (cut : ascend tree.knownHeights = front ++ back) {pivot : Pointer}
    (low : ∀ p ∈ front, (tree.intervals p).high < (tree.intervals pivot).high)
    (high : ∀ p ∈ back, (tree.intervals pivot).high < (tree.intervals p).high) :
    tree.lastUpTo pivot = front.getLast? := by
  apply BTreeG.head?_descendLessOrEqual tree.compares (inOrder canonical) cut
  · intro p member
    exact (less_eq_false_iff tree pivot p).mpr (Nat.le_of_lt (low p member))
  · intro p member
    exact (less_iff tree pivot p).mpr (high p member)

/-- Deleting a pointer takes out the range it points to. -/
theorem flatten_delete {pointer : Pointer} (ordered : InOrder tree.less (ascend tree.knownHeights))
    (cut : ascend tree.knownHeights = front ++ pointer :: back) :
    (tree.delete pointer).flatten = front.map tree.intervals ++ back.map tree.intervals := by
  have known : ascend (tree.delete pointer).knownHeights = front ++ back :=
    BTreeG.ascend_delete tree.compares ordered cut
  rw [flatten, known, List.map_append]
  rfl

/-- A pointer is inserted between those to ranges that end below and above. -/
theorem ascend_insert (canonical : Canonical tree.flatten)
    (cut : ascend tree.knownHeights = front ++ back) {pointer : Pointer}
    (low : ∀ p ∈ front, (tree.intervals p).high < (tree.intervals pointer).high)
    (high : ∀ p ∈ back, (tree.intervals pointer).high < (tree.intervals p).high) :
    ascend (tree.replaceOrInsert pointer).knownHeights = front ++ pointer :: back := by
  apply BTreeG.ascend_replaceOrInsert tree.compares (inOrder canonical) cut
  · intro p member
    exact (less_iff tree p pointer).mpr (low p member)
  · intro p member
    exact (less_iff tree pointer p).mpr (high p member)

end Tree

/-- Only the first range that does not end below a height can hold it. -/
theorem head_contains_iff {intervals : Pointer → Interval} {front back : List Pointer}
    {height : UInt64} (canonical : Canonical (front.map intervals ++ back.map intervals))
    (low : ∀ p ∈ front, (intervals p).high < height.toNat)
    (high : ∀ p ∈ back, height.toNat ≤ (intervals p).high) :
    back.head?.any (fun p => (intervals p).contains height) = true ↔
      Holds (front.map intervals ++ back.map intervals) height := by
  rw [Holds, covers_append]
  have below : ¬ Covers Interval.low Interval.high (front.map intervals) height.toNat := by
    rintro ⟨i, member, _, within⟩
    obtain ⟨p, inside, rfl⟩ := List.mem_map.mp member
    have ends := low p inside
    omega
  rw [or_iff_right below]
  cases back with
  | nil => simp
  | cons first rest =>
    have separated := (separated_append.mp canonical).2.1
    rw [List.map_cons] at separated
    have beyond : ¬ Covers Interval.low Interval.high (rest.map intervals) height.toNat := by
      intro covered
      have above := covers_above (separated_cons.mp separated).2.1 covered
      have ends := high first (by simp)
      omega
    rw [List.map_cons, List.head?_cons, Option.any_some, Interval.contains_iff, covers_cons,
      or_iff_left beyond]

section Calls

variable {B : Type} [BTreeG Pointer B] [LawfulBTreeG Pointer B] {tree : Tree B}

/-- The tree with a new interval of one height, cut where the search for the height begins. -/
theorem Tree.probe (canonical : Canonical tree.flatten) (height : UInt64) :
    let t := tree.write tree.fresh ⟨height, height⟩
    t.flatten = tree.flatten ∧ ∃ front back,
      ascend t.knownHeights = front ++ back ∧
      t.flatten = front.map t.intervals ++ back.map t.intervals ∧
      (∀ p ∈ front, (t.intervals p).high < height.toNat) ∧
      (∀ p ∈ back, height.toNat ≤ (t.intervals p).high) ∧
      t.firstFrom tree.fresh = back.head? := by
  intro t
  have same : t.flatten = tree.flatten := flatten_write_of_notMem tree.fresh_notMem _
  have own : (t.intervals tree.fresh).high = height.toNat :=
    congrArg Interval.high (tree.write_own tree.fresh ⟨height, height⟩)
  obtain ⟨front, back, cut, low, high, first⟩ := exists_cut (same.symm ▸ canonical) tree.fresh
  rw [own] at low high
  refine ⟨same, front, back, cut, ?_, low, high, first⟩
  rw [flatten, cut, List.map_append]

/-- `Contains` answers whether a range covers the height. -/
theorem Tree.contains_iff (canonical : Canonical tree.flatten) (height : UInt64) :
    tree.contains height = true ↔ Holds tree.flatten height := by
  obtain ⟨same, front, back, cut, shape, low, high, first⟩ := probe canonical height
  rw [Tree.contains, first, ← same, shape]
  apply head_contains_iff _ low high
  rw [← shape, same]
  exact canonical

end Calls

/-! ## What one call does to the ranges and to the batch -/

/-- What `Add` does with a height that no range holds: the ranges before and after, and what it
records in the batch. -/
inductive Growth (height : UInt64) :
    List Interval → List Interval → (BatchOps → BatchOps) → Prop
  | join (front back : List Interval) (lower upper : Interval)
      (below : lower.high + 1 = height.toNat) (above : height.toNat + 1 = upper.low) :
      Growth height (front ++ [lower, upper] ++ back)
        (front ++ [⟨lower.lowerBound, upper.upperBound⟩] ++ back)
        (fun batch => putInterval (deleteInterval batch lower.upperBound) upper.upperBound
          lower.lowerBound)
  | down (front back : List Interval) (upper : Interval)
      (gap : ∀ i ∈ front, i.high + 1 < height.toNat) (above : height.toNat + 1 = upper.low) :
      Growth height (front ++ [upper] ++ back) (front ++ [⟨height, upper.upperBound⟩] ++ back)
        (fun batch => putInterval batch upper.upperBound height)
  | up (front back : List Interval) (lower : Interval)
      (below : lower.high + 1 = height.toNat) (gap : ∀ i ∈ back, height.toNat + 1 < i.low) :
      Growth height (front ++ [lower] ++ back) (front ++ [⟨lower.lowerBound, height⟩] ++ back)
        (fun batch => putInterval (deleteInterval batch lower.upperBound) height lower.lowerBound)
  | fresh (front back : List Interval) (gapBelow : ∀ i ∈ front, i.high + 1 < height.toNat)
      (gapAbove : ∀ i ∈ back, height.toNat + 1 < i.low) :
      Growth height (front ++ [] ++ back) (front ++ [⟨height, height⟩] ++ back)
        (fun batch => putInterval batch height height)

/-- What `Remove` does with a height that a range holds. -/
inductive Shrinkage (height : UInt64) :
    List Interval → List Interval → (BatchOps → BatchOps) → Prop
  | drop (front back : List Interval) (higher : Interval)
      (below : higher.low = height.toNat) (above : height.toNat = higher.high) :
      Shrinkage height (front ++ [higher] ++ back) (front ++ [] ++ back)
        (fun batch => deleteInterval batch higher.upperBound)
  | raise (front back : List Interval) (higher : Interval)
      (below : higher.low = height.toNat) (above : height.toNat < higher.high) :
      Shrinkage height (front ++ [higher] ++ back)
        (front ++ [⟨higher.lowerBound + 1, higher.upperBound⟩] ++ back)
        (fun batch => putInterval batch higher.upperBound (higher.lowerBound + 1))
  | lower (front back : List Interval) (higher : Interval)
      (below : higher.low < height.toNat) (above : height.toNat = higher.high) :
      Shrinkage height (front ++ [higher] ++ back)
        (front ++ [⟨higher.lowerBound, higher.upperBound - 1⟩] ++ back)
        (fun batch => putInterval (deleteInterval batch higher.upperBound) (higher.upperBound - 1)
          higher.lowerBound)
  | cut (front back : List Interval) (higher : Interval)
      (below : higher.low < height.toNat) (above : height.toNat < higher.high) :
      Shrinkage height (front ++ [higher] ++ back)
        (front ++ [⟨higher.lowerBound, height - 1⟩, ⟨height + 1, higher.upperBound⟩] ++ back)
        (fun batch => putInterval (putInterval batch (height - 1) higher.lowerBound)
          higher.upperBound (height + 1))

/-- The range below the height that touches it, if there is one. -/
theorem lower_neighbour {intervals : Pointer → Interval} {front : List Pointer}
    (canonical : Canonical (front.map intervals)) {height : UInt64}
    (low : ∀ p ∈ front, (intervals p).high < height.toNat) :
    (∃ rest lower, front = rest ++ [lower] ∧ (intervals lower).high + 1 = height.toNat ∧
      front.getLast?.filter (fun p => (intervals p).adjacentToUpperBound height) = some lower) ∨
    (∀ i ∈ front.map intervals, i.high + 1 < height.toNat) ∧
      front.getLast?.filter (fun p => (intervals p).adjacentToUpperBound height) = none := by
  rcases List.eq_nil_or_concat front with rfl | ⟨rest, lower, rfl⟩
  · exact Or.inr ⟨by simp, rfl⟩
  · rw [List.concat_eq_append] at *
    have last : (rest ++ [lower]).getLast? = some lower := by simp
    rw [last]
    by_cases touches : (intervals lower).adjacentToUpperBound height = true
    · left
      refine ⟨rest, lower, rfl, (Interval.adjacentToUpperBound_iff _ _).mp touches, ?_⟩
      rw [Option.filter_some, if_pos touches]
    · right
      rw [Option.filter_some, if_neg touches, Interval.adjacentToUpperBound_iff] at *
      have ends := low lower (by simp)
      rw [List.map_append, List.map_singleton] at canonical ⊢
      refine ⟨?_, rfl⟩
      intro i member
      rcases List.mem_append.mp member with earlier | own
      · have gap := (separated_append.mp canonical).2.2 i earlier (intervals lower) (by simp)
        have nonempty := canonical.1 (intervals lower) (by simp)
        omega
      · rw [List.mem_singleton.mp own]
        omega

/-- The range above the height that touches it, if there is one. -/
theorem upper_neighbour {intervals : Pointer → Interval} {back : List Pointer}
    (canonical : Canonical (back.map intervals)) {height : UInt64}
    (high : ∀ p ∈ back, height.toNat < (intervals p).low) :
    (∃ upper rest, back = upper :: rest ∧ height.toNat + 1 = (intervals upper).low ∧
      back.head?.filter (fun p => (intervals p).adjacentToLowerBound height) = some upper) ∨
    (∀ i ∈ back.map intervals, height.toNat + 1 < i.low) ∧
      back.head?.filter (fun p => (intervals p).adjacentToLowerBound height) = none := by
  cases back with
  | nil => exact Or.inr ⟨by simp, rfl⟩
  | cons upper rest =>
    rw [List.head?_cons]
    by_cases touches : (intervals upper).adjacentToLowerBound height = true
    · left
      refine ⟨upper, rest, rfl, (Interval.adjacentToLowerBound_iff _ _).mp touches, ?_⟩
      rw [Option.filter_some, if_pos touches]
    · right
      rw [Option.filter_some, if_neg touches, Interval.adjacentToLowerBound_iff] at *
      rw [List.map_cons] at canonical ⊢
      obtain ⟨nonempty, before, _⟩ := separated_cons.mp canonical
      have starts := high upper (by simp)
      refine ⟨?_, rfl⟩
      intro i member
      rcases List.mem_cons.mp member with rfl | later
      · omega
      · have gap := before i later
        omega

section Changes

variable {B : Type} [BTreeG Pointer B] [LawfulBTreeG Pointer B] {tree : Tree B}

/-- `Add` leaves a tree that holds the height as it is. -/
theorem Tree.add_of_holds (canonical : Canonical tree.flatten) (batch : BatchOps)
    {height : UInt64} (held : Holds tree.flatten height) :
    tree.add batch height = (tree, batch) := by
  have found := (contains_iff canonical height).mpr held
  unfold Tree.contains at found
  unfold Tree.add
  rw [if_pos found]

/-- The two ranges that a height joins become one. -/
theorem Tree.flatten_join {t : Tree B} (canonical : Canonical t.flatten)
    {front back : List Pointer} {lower upper : Pointer}
    (cut : ascend t.knownHeights = front ++ lower :: upper :: back) :
    ((t.write upper ⟨(t.intervals lower).lowerBound, (t.intervals upper).upperBound⟩).delete
        lower).flatten =
      front.map t.intervals ++
        [⟨(t.intervals lower).lowerBound, (t.intervals upper).upperBound⟩] ++
        back.map t.intervals := by
  have ordered := inOrder canonical
  have nodup := ordered.nodup t.compares
  rw [cut, List.nodup_append, List.nodup_cons, List.nodup_cons] at nodup
  obtain ⟨_, ⟨_, above, _⟩, apart⟩ := nodup
  have below : upper ∉ front := by
    intro inside
    exact apart upper inside upper (by simp) rfl
  generalize joined : t.write upper
    ⟨(t.intervals lower).lowerBound, (t.intervals upper).upperBound⟩ = after
  have kept : after.less = t.less := by
    rw [← joined]
    exact t.less_write rfl
  have pointers : ascend after.knownHeights = front ++ lower :: upper :: back := by
    rw [← joined]
    exact cut
  rw [flatten_delete _ pointers, ← joined]
  · rw [List.map_cons, map_write_of_notMem _ _ below, map_write_of_notMem _ _ above, write_own,
      List.append_assoc, List.singleton_append]
  · rw [kept, pointers, ← cut]
    exact ordered

/-- The switch of `Add` grows the ranges by a height between them. -/
theorem Tree.addBetween_growth {t : Tree B} (canonical : Canonical t.flatten)
    {newInterval : Pointer} {height : UInt64} (own : t.intervals newInterval = ⟨height, height⟩)
    {front back : List Pointer} (cut : ascend t.knownHeights = front ++ back)
    (low : ∀ p ∈ front, (t.intervals p).high < height.toNat)
    (high : ∀ p ∈ back, height.toNat < (t.intervals p).low) :
    ∃ after record, Growth height t.flatten after.flatten record ∧
      after.numKnownHeights = t.numKnownHeights ∧
      ∀ batch, t.addBetween batch height newInterval
        (back.head?.filter (fun i => (t.intervals i).adjacentToLowerBound height))
        (front.getLast?.filter (fun i => (t.intervals i).adjacentToUpperBound height)) =
        (after, record batch) := by
  have nodup := (inOrder canonical).nodup t.compares
  have shape : t.flatten = front.map t.intervals ++ back.map t.intervals := by
    rw [flatten, cut, List.map_append]
  have parts := canonical
  rw [shape] at parts
  obtain ⟨canonicalFront, canonicalBack, _⟩ := separated_append.mp parts
  rcases upper_neighbour canonicalBack high with ⟨upper, back, rfl, touches, found⟩ | ⟨gap, found⟩
  · rcases lower_neighbour canonicalFront low with
      ⟨front, lower, rfl, alsoTouches, alsoFound⟩ | ⟨alsoGap, alsoFound⟩
    · rw [found, alsoFound]
      rw [List.append_assoc, List.singleton_append] at cut
      have joined := flatten_join canonical cut
      refine ⟨_, _, ?_, ?_, fun batch => rfl⟩
      · rw [joined, shape]
        have growth := Growth.join (front.map t.intervals) (back.map t.intervals)
          (t.intervals lower) (t.intervals upper) alsoTouches touches
        simpa using growth
      · rfl
    · rw [found, alsoFound]
      refine ⟨_, _, ?_, ?_, fun batch => rfl⟩
      · rw [flatten_write cut nodup, shape]
        have growth := Growth.down (front.map t.intervals) (back.map t.intervals)
          (t.intervals upper) alsoGap touches
        simpa using growth
      · rfl
  · rcases lower_neighbour canonicalFront low with
      ⟨front, lower, rfl, alsoTouches, alsoFound⟩ | ⟨alsoGap, alsoFound⟩
    · rw [found, alsoFound]
      rw [List.append_assoc, List.singleton_append] at cut
      refine ⟨_, _, ?_, ?_, fun batch => rfl⟩
      · rw [flatten_write cut nodup, shape]
        have growth := Growth.up (front.map t.intervals) (back.map t.intervals)
          (t.intervals lower) alsoTouches gap
        simpa using growth
      · rfl
    · rw [found, alsoFound]
      have placed : ascend (t.replaceOrInsert newInterval).knownHeights =
          front ++ newInterval :: back := by
        apply ascend_insert canonical cut
        · rw [own]
          exact low
        · intro p member
          have starts := high p member
          have nonempty := canonicalBack.1 (t.intervals p) (List.mem_map_of_mem member)
          rw [own]
          change height.toNat < _
          omega
      have inserted : (t.replaceOrInsert newInterval).flatten =
          front.map t.intervals ++ [⟨height, height⟩] ++ back.map t.intervals := by
        rw [flatten, placed, ← own]
        simp [replaceOrInsert]
      refine ⟨_, _, ?_, ?_, fun batch => rfl⟩
      · rw [inserted, shape]
        have growth := Growth.fresh (front.map t.intervals) (back.map t.intervals) alsoGap gap
        simpa using growth
      · rfl

/-- `Add` grows the ranges by a height that they do not hold. -/
theorem Tree.add_growth (canonical : Canonical tree.flatten) {height : UInt64}
    (absent : ¬ Holds tree.flatten height) :
    ∃ after record, Growth height tree.flatten after.flatten record ∧
      after.numKnownHeights = tree.numKnownHeights + 1 ∧
      ∀ batch, tree.add batch height = (after, record batch) := by
  have missing := mt (contains_iff canonical height).mp absent
  unfold Tree.contains at missing
  obtain ⟨same, front, back, cut, shape, low, high, first⟩ := probe canonical height
  have own := tree.write_own tree.fresh ⟨height, height⟩
  unfold Tree.add
  simp only [if_neg missing]
  rw [first]
  rw [← same] at canonical absent ⊢
  have inside : ∀ p ∈ back, (tree.write tree.fresh ⟨height, height⟩).intervals p ∈
      (tree.write tree.fresh ⟨height, height⟩).flatten := by
    intro p member
    rw [shape]
    exact List.mem_append_right _ (List.mem_map_of_mem member)
  have above : ∀ p ∈ back, height.toNat <
      ((tree.write tree.fresh ⟨height, height⟩).intervals p).low := by
    intro p member
    apply Nat.lt_of_not_le
    intro starts
    exact absent ⟨_, inside p member, starts, high p member⟩
  have last : (tree.write tree.fresh ⟨height, height⟩).lastUpTo tree.fresh = front.getLast? := by
    apply lastUpTo_cut canonical cut
    · rw [own]
      exact low
    · intro p member
      have starts := above p member
      have nonempty := canonical.1 _ (inside p member)
      rw [own]
      change height.toNat < _
      omega
  rw [last]
  exact addBetween_growth
    (t := { tree.write tree.fresh ⟨height, height⟩ with
      numKnownHeights := tree.numKnownHeights + 1 })
    canonical own cut low above

/-- `Remove` leaves a tree that does not hold the height as it is. -/
theorem Tree.remove_of_not_holds (canonical : Canonical tree.flatten) (batch : BatchOps)
    {height : UInt64} (absent : ¬ Holds tree.flatten height) :
    tree.remove batch height = (tree, batch) := by
  have missing := mt (contains_iff canonical height).mp absent
  unfold Tree.contains at missing
  unfold Tree.remove
  have nothing : ((tree.write tree.fresh ⟨height, height⟩).firstFrom tree.fresh).filter
      (fun i => ((tree.write tree.fresh ⟨height, height⟩).intervals i).contains height) =
      none := by
    rw [Option.any_eq_true] at missing
    rw [Option.filter_eq_none_iff]
    exact fun i found held => missing ⟨i, found, held⟩
  simp only [nothing]

/-- The range of a height that is inside it is cut in two. -/
theorem Tree.flatten_halve {t : Tree B} (canonical : Canonical t.flatten)
    {newInterval higher : Pointer} (unheld : newInterval ∉ ascend t.knownHeights)
    {front back : List Pointer} (cut : ascend t.knownHeights = front ++ higher :: back)
    {height : UInt64} (below : (t.intervals higher).low < height.toNat)
    (above : height.toNat < (t.intervals higher).high) :
    (((t.write newInterval ⟨(t.intervals higher).lowerBound, height - 1⟩).replaceOrInsert
        newInterval).write higher ⟨height + 1, (t.intervals higher).upperBound⟩).flatten =
      front.map t.intervals ++ [⟨(t.intervals higher).lowerBound, height - 1⟩,
        ⟨height + 1, (t.intervals higher).upperBound⟩] ++ back.map t.intervals := by
  have absent := unheld
  rw [cut, List.mem_append, List.mem_cons, not_or, not_or] at absent
  obtain ⟨notFront, notHigher, notBack⟩ := absent
  have shape : t.flatten = front.map t.intervals ++ t.intervals higher ::
      back.map t.intervals := by
    rw [flatten, cut]
    simp
  have parts := canonical
  rw [shape] at parts
  have apart := (separated_append.mp parts).2.2
  have beyond := parts.around.2
  have lowered : (height - 1).toNat = height.toNat - 1 := toNat_sub_one (by omega)
  -- The new range goes before the one that is cut.
  have same : (t.write newInterval ⟨(t.intervals higher).lowerBound, height - 1⟩).flatten =
      t.flatten := flatten_write_of_notMem unheld _
  have own := t.write_own newInterval ⟨(t.intervals higher).lowerBound, height - 1⟩
  have keptFront := t.map_write_of_notMem ⟨(t.intervals higher).lowerBound, height - 1⟩ notFront
  have keptBack := t.map_write_of_notMem ⟨(t.intervals higher).lowerBound, height - 1⟩ notBack
  have keptHigher : (t.write newInterval ⟨(t.intervals higher).lowerBound, height - 1⟩).intervals
      higher = t.intervals higher := Function.update_of_ne (Ne.symm notHigher) _ _
  have pointers : ascend (t.write newInterval
      ⟨(t.intervals higher).lowerBound, height - 1⟩).knownHeights = front ++ higher :: back := cut
  generalize t.write newInterval ⟨(t.intervals higher).lowerBound, height - 1⟩ = after at *
  have ordered : ∀ p ∈ front, (after.intervals p).high < (after.intervals newInterval).high := by
    intro p member
    have moved := List.mem_map_of_mem (f := after.intervals) member
    rw [keptFront] at moved
    have gap := apart _ moved (t.intervals higher) (by simp)
    rw [own]
    change _ < (height - 1).toNat
    omega
  have alsoOrdered : ∀ p ∈ higher :: back,
      (after.intervals newInterval).high < (after.intervals p).high := by
    rw [own]
    change ∀ p ∈ higher :: back, (height - 1).toNat < _
    rw [List.forall_mem_cons, keptHigher]
    refine ⟨by omega, fun p member => ?_⟩
    have moved := List.mem_map_of_mem (f := after.intervals) member
    rw [keptBack] at moved
    have further := beyond _ moved
    omega
  have placed := ascend_insert (same.symm ▸ canonical) pointers ordered alsoOrdered
  have nodup : (ascend (after.replaceOrInsert newInterval).knownHeights).Nodup := by
    rw [placed, List.nodup_middle, ← cut, List.nodup_cons]
    exact ⟨unheld, (inOrder canonical).nodup t.compares⟩
  rw [← List.singleton_append, ← List.append_assoc] at placed
  rw [flatten_write placed nodup]
  change (front ++ [newInterval]).map after.intervals ++ _ ++ back.map after.intervals = _
  rw [List.map_append, List.map_singleton, keptFront, keptBack, own]
  simp

/-- The switch of `Remove` shrinks the range of the height. -/
theorem Tree.removeFrom_shrinkage {t : Tree B} (canonical : Canonical t.flatten)
    {newInterval higher : Pointer} (unheld : newInterval ∉ ascend t.knownHeights)
    {front back : List Pointer} (cut : ascend t.knownHeights = front ++ higher :: back)
    {height : UInt64} (held : (t.intervals higher).contains height = true) :
    ∃ after record, Shrinkage height t.flatten after.flatten record ∧
      after.numKnownHeights = t.numKnownHeights ∧
      ∀ batch, t.removeFrom batch height newInterval higher = (after, record batch) := by
  have ordered := inOrder canonical
  have nodup := ordered.nodup t.compares
  have shape : t.flatten = front.map t.intervals ++ [t.intervals higher] ++
      back.map t.intervals := by
    rw [flatten, cut]
    simp
  obtain ⟨starts, ends⟩ := (Interval.contains_iff _ _).mp held
  unfold Tree.removeFrom
  by_cases single : (t.intervals higher).lowerBound = (t.intervals higher).upperBound
  · have same : (t.intervals higher).low = (t.intervals higher).high :=
      congrArg UInt64.toNat single
    simp only [if_pos single]
    refine ⟨_, _, ?_, ?_, fun batch => rfl⟩
    · rw [flatten_delete ordered cut, shape]
      have shrinkage := @Shrinkage.drop height (front.map t.intervals)
        (back.map t.intervals) (t.intervals higher) (by omega) (by omega)
      rwa [List.append_nil] at shrinkage
    · rfl
  · have longer : (t.intervals higher).low ≠ (t.intervals higher).high :=
      fun same => single (UInt64.toNat_inj.mp same)
    by_cases lowest : (t.intervals higher).lowerBound = height
    · have same : (t.intervals higher).low = height.toNat := congrArg UInt64.toNat lowest
      simp only [if_neg single, if_pos lowest]
      refine ⟨_, _, ?_, ?_, fun batch => rfl⟩
      · rw [flatten_write cut nodup, shape]
        exact Shrinkage.raise _ _ _ same (by omega)
      · rfl
    · have strict : (t.intervals higher).low ≠ height.toNat :=
        fun same => lowest (UInt64.toNat_inj.mp same)
      by_cases highest : (t.intervals higher).upperBound = height
      · have same : (t.intervals higher).high = height.toNat := congrArg UInt64.toNat highest
        simp only [if_neg single, if_neg lowest, if_pos highest]
        refine ⟨_, _, ?_, ?_, fun batch => rfl⟩
        · rw [flatten_write cut nodup, shape]
          exact Shrinkage.lower _ _ _ (by omega) same.symm
        · rfl
      · have within : (t.intervals higher).high ≠ height.toNat :=
          fun same => highest (UInt64.toNat_inj.mp same)
        simp only [if_neg single, if_neg lowest, if_neg highest]
        refine ⟨_, _, ?_, ?_, fun batch => rfl⟩
        · rw [flatten_halve canonical unheld cut (by omega) (by omega), shape]
          exact Shrinkage.cut _ _ _ (by omega) (by omega)
        · rfl

/-- `Remove` shrinks the ranges by a height that they hold. -/
theorem Tree.remove_shrinkage (canonical : Canonical tree.flatten) {height : UInt64}
    (held : Holds tree.flatten height) :
    ∃ after record, Shrinkage height tree.flatten after.flatten record ∧
      after.numKnownHeights = tree.numKnownHeights - 1 ∧
      ∀ batch, tree.remove batch height = (after, record batch) := by
  have found := (contains_iff canonical height).mpr held
  unfold Tree.contains at found
  obtain ⟨same, front, back, cut, shape, low, high, first⟩ := probe canonical height
  simp only [first] at found
  cases back with
  | nil => simp at found
  | cons higher back =>
    rw [List.head?_cons, Option.any_some] at found
    have selected : ((tree.write tree.fresh ⟨height, height⟩).firstFrom tree.fresh).filter
        (fun i => ((tree.write tree.fresh ⟨height, height⟩).intervals i).contains height) =
        some higher := by
      rw [first, List.head?_cons, Option.filter_some, if_pos found]
    unfold Tree.remove
    simp only [selected]
    rw [← same] at canonical ⊢
    exact removeFrom_shrinkage
      (t := { tree.write tree.fresh ⟨height, height⟩ with
        numKnownHeights := tree.numKnownHeights - 1 })
      canonical tree.fresh_notMem cut found

end Changes

end AvalancheParallel.Bootstrap.IntervalTree
