import AvalancheParallel.Utils.OrderedTypes

/-!
# The comparison of slices

`Compare` looks for the first position at which two slices differ and compares the two
elements there with `compareItems`. That function switches on the dynamic type of the
first element and asserts that the second element has the same type. Values of a type
outside the switch, such as `ids.ID`, fall into its last case: whichever of the two
comes first counts as the greater.

Equality and transitivity survive this. Swapping the arguments negates
the answer exactly when the first difference is between two values of one of the
types in the switch.
-/

namespace AvalancheParallel.Utils.Slices

open AvalancheParallel.Ids

/-- A comparable element type without floating point. Converting a value to `any` shows
its dynamic type and value when the type is in the switch, and nothing otherwise. For an
interface type the dynamic type depends on the value. -/
class Element (E : Type) where
  decidableEq : DecidableEq E
  dynamic : E → Option (Sigma OrderedType.Value)
  faithful (a b : E) (value : Sigma OrderedType.Value) :
    dynamic a = some value → dynamic b = some value → a = b

instance (priority := low) {E : Type} [Element E] : DecidableEq E := Element.decidableEq

/-- A type of the switch is the dynamic type of all its values. -/
instance (t : OrderedType) : Element t.Value where
  decidableEq := inferInstance
  dynamic value := some ⟨t, value⟩
  faithful a b value left right := by
    cases left
    cases right
    rfl

/-- An array type, as a named type, is not in the switch. -/
instance : Element ID where
  decidableEq := inferInstance
  dynamic _ := none
  faithful _ _ _ impossible := nomatch impossible

variable {E : Type} [Element E]

/-- The type assertion `any(b).(t)`, which panics when `b` has another dynamic type. -/
def assertType (t : OrderedType) (b : E) : Option t.Value :=
  match Element.dynamic b with
  | some ⟨other, value⟩ => if same : other = t then some (same ▸ value) else none
  | none => none

/-- `compareItems`, or nothing when a type assertion panics. -/
def compareItems (a b : E) : Option ℤ :=
  if a = b then some 0
  else
    match Element.dynamic a with
    | some ⟨t, v⟩ => (assertType t b).map (fun w => if v < w then -1 else 1)
    | none => some 1

/-- The loop of `Compare`: the elements at the first position that differs. -/
def firstDifference : List E → List E → Option (E × E)
  | x :: xs, y :: ys => if x ≠ y then some (x, y) else firstDifference xs ys
  | _, _ => none

/-- `Compare`. -/
def compare (s1 s2 : List E) : Option ℤ :=
  match firstDifference s1 s2 with
  | some (x, y) => compareItems x y
  | none =>
    if s1.length < s2.length then some (-1)
    else if s1.length > s2.length then some 1
    else some 0

/-- Both elements have the same dynamic type, and it is one of the switch. -/
def SameOrderedType (x y : E) : Prop :=
  ∃ t v w, Element.dynamic x = some ⟨t, v⟩ ∧ Element.dynamic y = some ⟨t, w⟩

/-- The order of the switch: two values of one of its types, the first below the second. -/
def Below (x y : E) : Prop :=
  ∃ t v w, Element.dynamic x = some ⟨t, v⟩ ∧ Element.dynamic y = some ⟨t, w⟩ ∧ v < w

/-- On two different values of a type in the switch, the comparison is the order of the type. -/
theorem compareItems_same {x y : E} {t : OrderedType} {v w : t.Value} (different : x ≠ y)
    (left : Element.dynamic x = some ⟨t, v⟩) (right : Element.dynamic y = some ⟨t, w⟩) :
    compareItems x y = some (if v < w then -1 else 1) := by
  simp [compareItems, assertType, different, left, right]

/-- Of two different values of one type, one is below the other. -/
theorem below_or_above {x y : E} {t : OrderedType} {v w : t.Value} (different : x ≠ y)
    (left : Element.dynamic x = some ⟨t, v⟩) (right : Element.dynamic y = some ⟨t, w⟩) :
    v < w ∨ w < v := by
  by_contra neither
  obtain ⟨notBelow, notAbove⟩ := not_or.mp neither
  have same := Ordered.trichotomous v w notBelow notAbove
  subst same
  exact different (Element.faithful x y ⟨t, v⟩ left right)

/-- Different elements never compare as equal. -/
theorem compareItems_ne_zero {x y : E} (different : x ≠ y) : compareItems x y ≠ some 0 := by
  unfold compareItems
  rw [if_neg different]
  split
  · intro zero
    obtain ⟨w, _, answer⟩ := Option.map_eq_some_iff.mp zero
    split at answer
    · omega
    · omega
  · simp

/-- Different elements compare as not above exactly when the first is below the second. -/
theorem compareItems_nonpos_iff {x y : E} (different : x ≠ y) :
    (∃ r ≤ 0, compareItems x y = some r) ↔ Below x y := by
  constructor
  · rintro ⟨r, nonpos, answer⟩
    unfold compareItems at answer
    rw [if_neg different] at answer
    split at answer
    case h_1 t v left =>
      unfold assertType at answer
      split at answer
      case h_1 other w right =>
        by_cases same : other = t
        · subst same
          rw [dif_pos rfl, Option.map_some, Option.some.injEq] at answer
          split at answer
          case isTrue below => exact ⟨other, v, w, left, right, below⟩
          case isFalse => omega
        · simp [same] at answer
      case h_2 => simp at answer
    case h_2 =>
      rw [Option.some.injEq] at answer
      omega
  · rintro ⟨t, v, w, left, right, below⟩
    refine ⟨-1, by omega, ?_⟩
    rw [compareItems_same different left right, if_pos below]

/-- On different elements, swapping the arguments negates the answer exactly when both
have the same type of the switch. -/
theorem compareItems_swap_iff {x y : E} (different : x ≠ y) :
    (∃ r, compareItems x y = some r ∧ compareItems y x = some (-r)) ↔ SameOrderedType x y := by
  constructor
  · rintro ⟨r, answer, swapped⟩
    -- one of the two answers is negative, and that names the common type
    rcases Int.le_total r 0 with nonpos | nonneg
    · obtain ⟨t, v, w, left, right, _⟩ := (compareItems_nonpos_iff different).mp ⟨r, nonpos, answer⟩
      exact ⟨t, v, w, left, right⟩
    · obtain ⟨t, w, v, right, left, _⟩ :=
        (compareItems_nonpos_iff (Ne.symm different)).mp ⟨-r, by omega, swapped⟩
      exact ⟨t, v, w, left, right⟩
  · rintro ⟨t, v, w, left, right⟩
    rw [compareItems_same different left right, compareItems_same (Ne.symm different) right left]
    rcases below_or_above different left right with below | above
    · refine ⟨-1, by rw [if_pos below], ?_⟩
      rw [if_neg (Ordered.asymmetric v w below)]
      rfl
    · refine ⟨1, by rw [if_neg (Ordered.asymmetric w v above)], ?_⟩
      rw [if_pos above]

/-- The loop passes over equal first elements. -/
theorem compare_cons_self (x : E) (xs ys : List E) :
    compare (x :: xs) (x :: ys) = compare xs ys := by
  simp [compare, firstDifference]

/-- The loop stops at different first elements. -/
theorem compare_cons_ne {x y : E} (different : x ≠ y) (xs ys : List E) :
    compare (x :: xs) (y :: ys) = compareItems x y := by
  simp [compare, firstDifference, different]

/-- Two empty slices are equal. -/
theorem compare_nil_nil : compare ([] : List E) [] = some 0 := rfl

/-- The empty slice is before every other. -/
theorem compare_nil_cons (y : E) (ys : List E) : compare [] (y :: ys) = some (-1) := rfl

/-- Every other slice is after the empty one. -/
theorem compare_cons_nil (x : E) (xs : List E) : compare (x :: xs) [] = some 1 := rfl

/-- Two slices compare as equal exactly when they are. -/
theorem compare_eq_zero_iff (a b : List E) : compare a b = some 0 ↔ a = b := by
  induction a generalizing b with
  | nil =>
    cases b with
    | nil => simp [compare_nil_nil]
    | cons y ys => simp [compare_nil_cons]
  | cons x xs inductionHypothesis =>
    cases b with
    | nil => simp [compare_cons_nil]
    | cons y ys =>
      by_cases same : x = y
      · subst same
        rw [compare_cons_self, inductionHypothesis, List.cons.injEq, eq_self, true_and]
      · rw [compare_cons_ne same]
        simp [compareItems_ne_zero same, same]

/-- A slice compares as not above another when it is equal to it or before it
lexicographically. -/
theorem compare_nonpos_iff (a b : List E) :
    (∃ r ≤ 0, compare a b = some r) ↔ a = b ∨ List.Lex Below a b := by
  induction a generalizing b with
  | nil =>
    cases b with
    | nil => simp [compare_nil_nil]
    | cons y ys => simp [compare_nil_cons]
  | cons x xs inductionHypothesis =>
    cases b with
    | nil => simp [compare_cons_nil]
    | cons y ys =>
      by_cases same : x = y
      · subst same
        have notBelow : ¬ Below x x := by
          rintro ⟨t, v, w, left, right, below⟩
          rw [left] at right
          cases right
          exact Ordered.asymmetric v v below below
        rw [compare_cons_self, inductionHypothesis, List.cons_lex_cons_iff]
        simp [notBelow]
      · rw [compare_cons_ne same, compareItems_nonpos_iff same, List.cons_lex_cons_iff]
        simp [same]

/-- Where the slices first differ, both elements have the same type of the switch. It holds
when one slice continues the other. -/
def OrderedDifference (a b : List E) : Prop :=
  ∀ shared x y xs ys, a = shared ++ x :: xs → b = shared ++ y :: ys → x ≠ y → SameOrderedType x y

/-- Equal first elements are shared. -/
theorem orderedDifference_cons_self (x : E) (xs ys : List E) :
    OrderedDifference (x :: xs) (x :: ys) ↔ OrderedDifference xs ys := by
  constructor
  · intro ordered shared left right ls rs splitLeft splitRight
    exact ordered (x :: shared) left right ls rs (by rw [splitLeft, List.cons_append])
      (by rw [splitRight, List.cons_append])
  · intro ordered shared left right ls rs splitLeft splitRight different
    cases shared with
    | nil =>
      obtain ⟨rfl, _⟩ := List.cons.inj splitLeft
      obtain ⟨rfl, _⟩ := List.cons.inj splitRight
      exact absurd rfl different
    | cons _ others =>
      exact ordered others left right ls rs (List.cons.inj splitLeft).2
        (List.cons.inj splitRight).2 different

/-- Different first elements are the first difference. -/
theorem orderedDifference_cons_ne {x y : E} (different : x ≠ y) (xs ys : List E) :
    OrderedDifference (x :: xs) (y :: ys) ↔ SameOrderedType x y := by
  constructor
  · intro ordered
    exact ordered [] x y xs ys rfl rfl different
  · intro same shared left right ls rs splitLeft splitRight _
    cases shared with
    | nil =>
      obtain ⟨rfl, _⟩ := List.cons.inj splitLeft
      obtain ⟨rfl, _⟩ := List.cons.inj splitRight
      exact same
    | cons first _ =>
      have leftHead : x = first := (List.cons.inj splitLeft).1
      have rightHead : y = first := (List.cons.inj splitRight).1
      exact absurd (leftHead.trans rightHead.symm) different

/-- Swapping the arguments negates the answer exactly when the first difference is ordered. -/
theorem compare_swap_iff (a b : List E) :
    (∃ r, compare a b = some r ∧ compare b a = some (-r)) ↔ OrderedDifference a b := by
  induction a generalizing b with
  | nil =>
    have ordered : OrderedDifference [] b := by
      intro shared x y xs ys impossible
      simp at impossible
    cases b with
    | nil => simp [compare_nil_nil, ordered]
    | cons y ys => simp [compare_nil_cons, compare_cons_nil, ordered]
  | cons x xs inductionHypothesis =>
    cases b with
    | nil =>
      have ordered : OrderedDifference (x :: xs) [] := by
        intro shared x y xs ys _ impossible
        simp at impossible
      simp [compare_nil_cons, compare_cons_nil, ordered]
    | cons y ys =>
      by_cases same : x = y
      · subst same
        rw [compare_cons_self, compare_cons_self, orderedDifference_cons_self, inductionHypothesis]
      · rw [compare_cons_ne same, compare_cons_ne (Ne.symm same), orderedDifference_cons_ne same,
          compareItems_swap_iff same]

/-- The order of the switch is transitive. -/
theorem below_trans {x y z : E} (first : Below x y) (second : Below y z) : Below x z := by
  obtain ⟨t, u, v, left, middle, below⟩ := first
  obtain ⟨other, v', w, middle', right, above⟩ := second
  rw [middle] at middle'
  cases middle'
  exact ⟨t, u, w, left, right, Ordered.transitive u v w below above⟩

/-- A slice that is not above a second, which is not above a third, is not above the third. -/
theorem compare_nonpos_trans (a b c : List E) (first : ∃ r ≤ 0, compare a b = some r)
    (second : ∃ r ≤ 0, compare b c = some r) : ∃ r ≤ 0, compare a c = some r := by
  rw [compare_nonpos_iff] at first second ⊢
  rcases first with rfl | before
  · exact second
  · rcases second with rfl | after
    · exact .inr before
    · let : LT E := ⟨Below⟩
      let : Trans (fun x y : E => x < y) (fun x y : E => x < y) (fun x y : E => x < y) :=
        ⟨below_trans⟩
      exact .inr (List.lt_trans before after)

/-- The laws of a total order, for three slices. A panic breaks the first law. -/
structure OrderLaws (a b c : List E) : Prop where
  swapped : ∃ r, compare a b = some r ∧ compare b a = some (-r)
  zero : compare a b = some 0 ↔ a = b
  transitive : (∃ r ≤ 0, compare a b = some r) → (∃ r ≤ 0, compare b c = some r) →
    ∃ r ≤ 0, compare a c = some r

/-- The laws hold exactly when the slices first differ in two values of one of the types
of the switch, or one continues the other. -/
theorem orderLaws_iff (a b c : List E) : OrderLaws a b c ↔ OrderedDifference a b := by
  constructor
  · intro laws
    exact (compare_swap_iff a b).mp laws.swapped
  · intro ordered
    exact
      { swapped := (compare_swap_iff a b).mpr ordered
        zero := compare_eq_zero_iff a b
        transitive := compare_nonpos_trans a b c }

/-- Of two different IDs, each compares as greater than the other. -/
theorem ids_compare_both_greater :
    ¬ (∀ (E : Type) (_ : Element E) (a b c : List E), OrderLaws a b c) ∧
      compare [(Vector.replicate 32 0 : ID)] [(Vector.replicate 32 1 : ID)] = some 1 ∧
        compare [(Vector.replicate 32 1 : ID)] [(Vector.replicate 32 0 : ID)] = some 1 := by
  have forward : compare [(Vector.replicate 32 0 : ID)]
      [(Vector.replicate 32 1 : ID)] = some 1 := by decide
  have backward : compare [(Vector.replicate 32 1 : ID)]
      [(Vector.replicate 32 0 : ID)] = some 1 := by decide
  refine ⟨fun laws => ?_, forward, backward⟩
  obtain ⟨r, answer, swapped⟩ := (laws ID inferInstance [Vector.replicate 32 0]
    [Vector.replicate 32 1] []).swapped
  rw [forward, Option.some.injEq] at answer
  rw [backward, Option.some.injEq] at swapped
  omega

end AvalancheParallel.Utils.Slices
