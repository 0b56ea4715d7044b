import AvalancheParallel.Utils.Sorting

/-!
# The ordered types of the type switches

The switches of `isLessThan` and `compareItems` name every integer width and
`string` beside the floating-point types. An `int` has 64 bits here. A string is
the list of its bytes, which is what `<` compares.

`IsSortedAndUniqueOrdered` rejects a list at the first pair that increases. Its answer
is right on a list of two or more elements only when some adjacent pair increases
and some adjacent pair does not.
-/

namespace AvalancheParallel.Utils

open AvalancheParallel.EarlyExits

/-- A type whose case of the switch is the order of the type, with the laws of that order. -/
class Ordered (T : Type) extends LT T, TypeSwitch T where
  decidableEq : DecidableEq T
  decidableLT : DecidableLT T
  isLessThan_eq (a b : T) : isLessThan a b = decide (a < b)
  asymmetric (a b : T) : a < b → ¬ b < a
  transitive (a b c : T) : a < b → b < c → a < c
  trichotomous (a b : T) : ¬ a < b → ¬ b < a → a = b

instance (priority := low) Ordered.instDecidableEq {T : Type} [Ordered T] : DecidableEq T :=
  Ordered.decidableEq

instance (priority := low) Ordered.instDecidableLT {T : Type} [Ordered T] : DecidableLT T :=
  Ordered.decidableLT

/-- The laws for a type that has them as instances. -/
@[reducible]
def orderedOf (T : Type) [DecidableEq T] [LT T] [DecidableLT T]
    [asymm : Std.Asymm (fun a b : T => a < b)]
    [trans : Trans (fun a b : T => a < b) (fun a b => a < b) (fun a b => a < b)]
    [total : Std.Trichotomous (fun a b : T => a < b)] : Ordered T where
  isLessThan := orderedCase
  decidableEq := inferInstance
  decidableLT := inferInstance
  isLessThan_eq _ _ := rfl
  asymmetric := asymm.asymm
  transitive _ _ _ := trans.trans
  trichotomous := total.trichotomous

instance : Ordered Int8 := orderedOf Int8
instance : Ordered Int16 := orderedOf Int16
instance : Ordered Int32 := orderedOf Int32
instance : Ordered Int64 := orderedOf Int64
instance : Ordered UInt8 := orderedOf UInt8
instance : Ordered UInt16 := orderedOf UInt16
instance : Ordered UInt32 := orderedOf UInt32
instance : Ordered UInt64 := orderedOf UInt64
instance : Ordered (List UInt8) := orderedOf (List UInt8)

/-- The cases of the type switches, without the floating-point types. -/
inductive OrderedType where
  | int
  | int8
  | int16
  | int32
  | int64
  | uint
  | uint8
  | uint16
  | uint32
  | uint64
  | string
  deriving DecidableEq

/-- The values of a case. -/
def OrderedType.Value : OrderedType → Type
  | .int => Int64
  | .int8 => Int8
  | .int16 => Int16
  | .int32 => Int32
  | .int64 => Int64
  | .uint => UInt64
  | .uint8 => UInt8
  | .uint16 => UInt16
  | .uint32 => UInt32
  | .uint64 => UInt64
  | .string => List UInt8

instance OrderedType.ordered : (t : OrderedType) → Ordered t.Value
  | .int => inferInstanceAs (Ordered Int64)
  | .int8 => inferInstanceAs (Ordered Int8)
  | .int16 => inferInstanceAs (Ordered Int16)
  | .int32 => inferInstanceAs (Ordered Int32)
  | .int64 => inferInstanceAs (Ordered Int64)
  | .uint => inferInstanceAs (Ordered UInt64)
  | .uint8 => inferInstanceAs (Ordered UInt8)
  | .uint16 => inferInstanceAs (Ordered UInt16)
  | .uint32 => inferInstanceAs (Ordered UInt32)
  | .uint64 => inferInstanceAs (Ordered UInt64)
  | .string => inferInstanceAs (Ordered (List UInt8))

section Laws

variable {T : Type} [Ordered T]

/-- Of two elements, `a ≤ b` is the negation of `b < a`. -/
theorem isLessThanOrEqual_iff (a b : T) : isLessThanOrEqual a b = true ↔ ¬ b < a := by
  unfold isLessThanOrEqual isEqual
  rw [Ordered.isLessThan_eq, Bool.or_eq_true, decide_eq_true_iff, decide_eq_true_iff]
  constructor
  · rintro (below | rfl)
    · exact Ordered.asymmetric a b below
    · exact fun below => Ordered.asymmetric a a below below
  · intro notAbove
    by_cases below : a < b
    · exact .inl below
    · exact .inr (Ordered.trichotomous a b below notAbove)

/-- The check accepts the lists in which no adjacent pair increases. -/
theorem isSortedAndUniqueOrdered_iff (s : List T) :
    isSortedAndUniqueOrdered s = true ↔ s.IsChain (fun a b => ¬ a < b) := by
  unfold isSortedAndUniqueOrdered
  rw [allAdjacent_iff]
  simp only [isLessThanOrEqual_iff]

end Laws

/-- The check is the strict order exactly on the lists without a pair and on the lists
with both an increasing adjacent pair and one that does not increase. -/
theorem strict_order_decided_iff (t : OrderedType) (s : List t.Value) :
    (isSortedAndUniqueOrdered s = true ↔ ∀ i (_ : i + 1 < s.length), s[i] < s[i + 1]) ↔
      s.length ≤ 1 ∨
        ((∃ i, ∃ _ : i + 1 < s.length, s[i] < s[i + 1]) ∧
          ∃ i, ∃ _ : i + 1 < s.length, ¬ s[i] < s[i + 1]) := by
  rw [isSortedAndUniqueOrdered_iff, List.isChain_iff_getElem]
  constructor
  · intro agree
    by_contra neither
    obtain ⟨long, notBoth⟩ := not_or.mp neither
    have pair : 0 + 1 < s.length := by omega
    by_cases rises : s[0] < s[0 + 1]
    · -- without a pair that fails to increase, every pair increases, and the check refuses
      have increasing : ∀ i (_ : i + 1 < s.length), s[i] < s[i + 1] := by
        intro i within
        by_contra falls
        exact notBoth ⟨⟨0, pair, rises⟩, i, within, falls⟩
      exact agree.mpr increasing 0 pair rises
    · have falling : ∀ i (_ : i + 1 < s.length), ¬ s[i] < s[i + 1] := by
        intro i within above
        exact notBoth ⟨⟨i, within, above⟩, 0, pair, rises⟩
      exact rises (agree.mp falling 0 pair)
  · rintro (short | ⟨⟨i, within, rises⟩, j, inside, falls⟩)
    · constructor
      · intro _ i within
        omega
      · intro _ i within
        omega
    · constructor
      · intro accepted
        exact absurd rises (accepted i within)
      · intro increasing
        exact absurd (increasing j inside) falls

/-- Two increasing indices are rejected, and two equal ones are accepted. -/
theorem increasing_pair_rejected :
    ¬ (∀ (t : OrderedType) (s : List t.Value),
      isSortedAndUniqueOrdered s = true ↔ ∀ i (_ : i + 1 < s.length), s[i] < s[i + 1]) ∧
      isSortedAndUniqueOrdered ([0, 1] : List UInt32) = false ∧
        isSortedAndUniqueOrdered ([1, 1] : List UInt32) = true := by
  refine ⟨fun agree => ?_, by decide, by decide⟩
  have rejected := (agree .uint32 ([1, 1] : List UInt32)).mp (by decide) 0 (by decide)
  exact absurd rejected (by decide)

end AvalancheParallel.Utils
