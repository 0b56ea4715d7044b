import AvalancheParallel.Foundation.EarlyExits
import AvalancheParallel.Foundation.SliceSort
import AvalancheParallel.Ids

/-!
# The sorting helpers of `utils/sorting.go`

`Sort` and `SortByHash` call `sort.Slice`, which is a parameter. `IsSortedAndUnique`
uses the `Compare` method of its elements.
`IsSortedAndUniqueOrdered` compares through a switch on the dynamic type; each
case of the switch is an instance of `TypeSwitch`. The two floating-point cases
are left out.

The loop of `IsSortedAndUniqueOrdered` calls `isLessThanOrEqual` on an element
and its predecessor, in this order: it accepts the lists that never increase.
`IsSortedAndUnique` and `IsSortedAndUniqueByHash` accept what the two sorting functions
make of a list without duplicates.
-/

namespace AvalancheParallel.Utils

open AvalancheParallel.EarlyExits AvalancheParallel.Ids AvalancheParallel.SliceSort

/-- The case of the type switch in `isLessThan` that applies to a type. -/
class TypeSwitch (T : Type) where
  isLessThan : T → T → Bool

/-- The cases for ordered types compare with `<`. -/
def orderedCase {T : Type} [LT T] [DecidableLT T] (a b : T) : Bool := decide (a < b)

instance : TypeSwitch Int8 := ⟨orderedCase⟩
instance : TypeSwitch Int16 := ⟨orderedCase⟩
instance : TypeSwitch Int32 := ⟨orderedCase⟩
instance : TypeSwitch Int64 := ⟨orderedCase⟩
instance : TypeSwitch UInt8 := ⟨orderedCase⟩
instance : TypeSwitch UInt16 := ⟨orderedCase⟩
instance : TypeSwitch UInt32 := ⟨orderedCase⟩
instance : TypeSwitch UInt64 := ⟨orderedCase⟩
instance : TypeSwitch (List UInt8) := ⟨orderedCase⟩

/-- The last case: every value of another type counts as smaller. A byte slice is not
comparable, so the comparison of bytes in that case is never made. -/
instance (priority := low) (T : Type) : TypeSwitch T := ⟨fun _ _ => true⟩

variable {T : Type} [DecidableEq T] [TypeSwitch T]

/-- `isEqual`. -/
def isEqual (a b : T) : Bool := decide (a = b)

/-- `isLessThanOrEqual`. -/
def isLessThanOrEqual (a b : T) : Bool := TypeSwitch.isLessThan a b || isEqual a b

/-- `IsSortedAndUniqueOrdered`. -/
def isSortedAndUniqueOrdered (s : List T) : Bool :=
  allAdjacent (fun current next => isLessThanOrEqual next current) s

/-- `IsSortedAndUnique`, for elements with a `Compare` method. -/
def isSortedAndUnique {S : Type} (compare : S → S → ℤ) (s : List S) : Bool :=
  allAdjacent (fun current next => decide (¬ compare current next ≥ 0)) s

/-- On `uint32`, the comparison is the order of the numbers. -/
theorem isLessThanOrEqual_uint32 (a b : UInt32) : isLessThanOrEqual a b = true ↔ a ≤ b := by
  change (decide (a < b) || decide (a = b)) = true ↔ a ≤ b
  rw [Bool.or_eq_true, decide_eq_true_iff, decide_eq_true_iff]
  simp only [UInt32.lt_iff_toNat_lt, UInt32.le_iff_toNat_le, ← UInt32.toNat_inj]
  omega

/-- On `uint32`, the check accepts exactly the lists that never increase. -/
theorem isSortedAndUniqueOrdered_uint32 (s : List UInt32) :
    isSortedAndUniqueOrdered s = true ↔ s.Pairwise (fun current next => next ≤ current) := by
  unfold isSortedAndUniqueOrdered
  rw [allAdjacent_iff_pairwise]
  · simp only [isLessThanOrEqual_uint32]
  · intro first second third
    simp only [isLessThanOrEqual_uint32]
    exact fun before after => UInt32.le_trans after before

/-- A strictly increasing list is accepted only when it has at most one element. -/
theorem increasing_accepted_iff (s : List UInt32) (increasing : s.Pairwise (· < ·)) :
    isSortedAndUniqueOrdered s = true ↔ s.length ≤ 1 := by
  rw [isSortedAndUniqueOrdered_uint32]
  match s, increasing with
  | [], _ => simp
  | [_], _ => simp
  | first :: second :: rest, increasing =>
    constructor
    · intro decreasing
      have above : first < second := List.rel_of_pairwise_cons increasing List.mem_cons_self
      have below : second ≤ first := List.rel_of_pairwise_cons decreasing List.mem_cons_self
      exact absurd above (UInt32.not_lt.mpr below)
    · intro short
      simp at short

/-- Elements accepted by `IsSortedAndUnique` are pairwise different when `Compare` is a
strict order. -/
theorem isSortedAndUnique_nodup {S : Type} (compare : S → S → ℤ) (refl : ∀ a, compare a a = 0)
    (transitive : ∀ a b c, compare a b < 0 → compare b c < 0 → compare a c < 0) (s : List S)
    (sorted : isSortedAndUnique compare s = true) : s.Nodup := by
  unfold isSortedAndUnique at sorted
  rw [allAdjacent_iff_pairwise] at sorted
  · refine sorted.imp ?_
    rintro a b below rfl
    simp [refl] at below
  · intro a b c
    simp only [decide_eq_true_eq, ge_iff_le, Int.not_le]
    exact transitive a b c

/-- `Sort`, for elements with a `Compare` method. -/
def sort {S : Type} (slice : SortFunction) (compare : S → S → ℤ) (s : List S) : List S :=
  slice.sort (fun a b => decide (compare a b < 0)) s

/-- The comparison of two elements by a key of bytes. -/
def keyLess {S : Type} (key : S → List UInt8) (a b : S) : Bool :=
  decide (bytesCompare (key a) (key b) < 0)

variable (sha256 : List UInt8 → ID)

/-- `ComputeHash256`. -/
def computeHash256 (bytes : List UInt8) : List UInt8 := (sha256 bytes).toList

/-- `SortByHash`. -/
def sortByHash (slice : SortFunction) (s : List (List UInt8)) : List (List UInt8) :=
  slice.sort (keyLess (computeHash256 sha256)) s

/-- The loop of `IsSortedAndUniqueByHash`, which keeps the hash of the last element. -/
def hashesIncrease (rightHash : List UInt8) : List (List UInt8) → Bool
  | [] => true
  | next :: rest =>
    if bytesCompare rightHash (computeHash256 sha256 next) ≥ 0 then false
    else hashesIncrease (computeHash256 sha256 next) rest

/-- `IsSortedAndUniqueByHash`. -/
def isSortedAndUniqueByHash : List (List UInt8) → Bool
  | [] => true
  | first :: rest => hashesIncrease sha256 (computeHash256 sha256 first) rest

section Keys

variable {S : Type} (key : S → List UInt8)

/-- Comparing keys is a strict weak order. -/
theorem keyLess_order : StrictWeakOrder (keyLess key) where
  asymmetric := by
    intro first second
    simp only [keyLess, decide_eq_true_eq, decide_eq_false_iff_not]
    rw [bytesCompare_swap (key first) (key second)]
    omega
  between := by
    intro first second third
    simp only [keyLess, decide_eq_true_eq]
    intro below
    by_contra neither
    obtain ⟨notBefore, notAfter⟩ := not_or.mp neither
    have swapped := bytesCompare_swap (key first) (key second)
    rcases Int.lt_trichotomy (bytesCompare (key first) (key second)) 0 with less | same | greater
    · exact notBefore less
    · rw [bytesCompare_eq_zero same] at below
      exact notAfter below
    · exact notAfter (bytesCompare_trans _ _ _ (by omega) below)

/-- Elements with different keys are distinguished. -/
theorem keyLess_distinguishes {s : List S}
    (injective : ∀ first ∈ s, ∀ second ∈ s, key first = key second → first = second) :
    Distinguishes (keyLess key) s := by
  intro first inFirst second inSecond notBefore notAfter
  simp only [keyLess, decide_eq_false_iff_not, Int.not_lt] at notBefore notAfter
  rw [bytesCompare_swap (key first) (key second)] at notAfter
  exact injective first inFirst second inSecond (bytesCompare_eq_zero (by omega))

/-- The check with a comparison of keys accepts the strictly increasing lists. -/
theorem isSortedAndUnique_iff (s : List S) :
    isSortedAndUnique (fun a b => bytesCompare (key a) (key b)) s = true ↔
      s.Pairwise (fun earlier later => keyLess key earlier later = true) := by
  have tests : (fun current next => decide (¬ bytesCompare (key current) (key next) ≥ 0)) =
      keyLess key := by
    funext current next
    simp [keyLess]
  unfold isSortedAndUnique
  rw [tests, allAdjacent_iff_pairwise]
  intro first second third
  simp only [keyLess, decide_eq_true_eq]
  exact bytesCompare_trans _ _ _

end Keys

/-- Keeping the last hash does not change what is compared. -/
theorem isSortedAndUniqueByHash_eq (s : List (List UInt8)) :
    isSortedAndUniqueByHash sha256 s = isSortedAndUnique
      (fun a b => bytesCompare (computeHash256 sha256 a) (computeHash256 sha256 b)) s := by
  cases s with
  | nil => rfl
  | cons first rest =>
    change hashesIncrease sha256 (computeHash256 sha256 first) rest = _
    induction rest generalizing first with
    | nil => rfl
    | cons next others inductionHypothesis =>
      have later := inductionHypothesis next
      unfold isSortedAndUnique at later ⊢
      unfold hashesIncrease allAdjacent
      by_cases failed : bytesCompare (computeHash256 sha256 first) (computeHash256 sha256 next) ≥ 0
      · simp [failed]
      · simp only [failed, if_false, not_false_eq_true, decide_true, if_true]
        exact later

end AvalancheParallel.Utils
