import Mathlib.Data.List.Pairwise

/-!
# Sorting with a comparison

A sorting function that takes the comparison as an argument, such as `sort.Slice` of
Go, promises little: the result is a rearrangement of the elements, in which no later
element is smaller than an earlier one, provided that the comparison is a strict weak
order. It need not be stable. Where elements that are not distinguished by the
comparison are equal, this determines the result.
-/

namespace AvalancheParallel.SliceSort

universe u
variable {α : Type u}

/-- A comparison that a sorting function accepts: being incomparable is transitive. -/
structure StrictWeakOrder (less : α → α → Bool) : Prop where
  asymmetric : ∀ first second, less first second = true → less second first = false
  between : ∀ first second third, less first third = true →
    less first second = true ∨ less second third = true

/-- A sorting function. -/
structure SortFunction where
  sort : {T : Type} → (T → T → Bool) → List T → List T
  perm : ∀ {T : Type} (less : T → T → Bool) (s : List T), (sort less s).Perm s
  sorted : ∀ {T : Type} (less : T → T → Bool) (s : List T), StrictWeakOrder less →
    (sort less s).Pairwise (fun earlier later => less later earlier = false)

/-- Merge sort is one. -/
def mergeSortFunction : SortFunction where
  sort := fun less s => s.mergeSort (fun first second => !less second first)
  perm := fun _ s => List.mergeSort_perm s _
  sorted := by
    intro T less s order
    have transitive : ∀ first second third : T, (!less second first) = true →
        (!less third second) = true → (!less third first) = true := by
      intro first second third
      simp only [Bool.not_eq_true']
      intro before after
      by_contra smaller
      cases order.between third second first (by simpa using smaller) with
      | inl later => exact absurd later (by simp [after])
      | inr earlier => exact absurd earlier (by simp [before])
    have total : ∀ first second : T, (!less second first || !less first second) = true := by
      intro first second
      cases smaller : less second first with
      | false => rfl
      | true => simp [order.asymmetric second first smaller]
    have sorted := List.pairwise_mergeSort transitive total s
    exact sorted.imp (fun ordered => by simpa using ordered)

variable {T : Type} {less : T → T → Bool}

/-- Elements that the comparison does not distinguish are equal. -/
def Distinguishes (less : T → T → Bool) (s : List T) : Prop :=
  ∀ first ∈ s, ∀ second ∈ s, less first second = false → less second first = false →
    first = second

/-- The result depends on the elements only, not on their order. -/
theorem sort_eq_of_perm (sorting : SortFunction) (order : StrictWeakOrder less) {s t : List T}
    (distinguishes : Distinguishes less s) (rearranged : t.Perm s) :
    sorting.sort less t = sorting.sort less s := by
  refine List.Perm.eq_of_pairwise ?_ (sorting.sorted less t order) (sorting.sorted less s order)
    ((sorting.perm less t).trans (rearranged.trans (sorting.perm less s).symm))
  intro first second inFirst inSecond notAfter notBefore
  exact distinguishes first (rearranged.subset ((sorting.perm less t).subset inFirst))
    second ((sorting.perm less s).subset inSecond) notBefore notAfter

/-- The result is strictly increasing exactly when no element occurs twice. -/
theorem sort_increasing_iff (sorting : SortFunction) (order : StrictWeakOrder less) {s : List T}
    (distinguishes : Distinguishes less s) :
    (sorting.sort less s).Pairwise (fun earlier later => less earlier later = true) ↔
      s.Nodup := by
  have elements := sorting.perm less s
  rw [← elements.nodup_iff]
  constructor
  · intro increasing
    refine increasing.imp ?_
    rintro earlier later smaller rfl
    exact absurd smaller (by simp [order.asymmetric _ _ smaller])
  · intro distinct
    refine ((sorting.sorted less s order).and distinct).imp_of_mem ?_
    rintro earlier later inEarlier inLater ⟨notAfter, different⟩
    by_contra notBefore
    exact different (distinguishes earlier (elements.subset inEarlier) later
      (elements.subset inLater) (by simpa using notBefore) notAfter)

end AvalancheParallel.SliceSort
