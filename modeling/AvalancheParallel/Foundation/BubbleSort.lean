import AvalancheParallel.Foundation.SliceSort

/-!
# Sorting by exchanges of neighbours

Two nested loops over positions: a pass compares each element with the next one and exchanges
the two when the first is the smaller, up to the elements that earlier passes have put in
place. A pass carries an element along until it meets a smaller one, which it carries
from there, so the element at the end of the pass is a smallest one. Elements that the
comparison does not distinguish never pass each other.
-/

namespace AvalancheParallel.BubbleSort

open AvalancheParallel.SliceSort

universe u
variable {α : Type u} (less : α → α → Bool)

/-- Exchange an element with the next one when it is the smaller. -/
def exchangeNext (s : List α) (j : ℕ) : List α :=
  match s[j]?, s[j + 1]? with
  | some x, some y => if less x y then (s.set j y).set (j + 1) x else s
  | _, _ => s

/-- The inner loop, when the last `i` elements are in place. -/
def pass (s : List α) (i : ℕ) : List α :=
  (List.range (s.length - i - 1)).foldl (exchangeNext less) s

/-- Both loops. -/
def bubbleSort (s : List α) : List α := (List.range s.length).foldl (pass less) s

/-- What a pass does: the elements it leaves behind, and the one it carries to the end. -/
def carry (x : α) : List α → List α × α
  | [] => ([], x)
  | y :: rest =>
    if less x y then (y :: (carry x rest).1, (carry x rest).2)
    else (x :: (carry y rest).1, (carry y rest).2)

/-- Elements that the comparison does not distinguish from each other are in the same order. -/
def Stable (s t : List α) : Prop :=
  ∀ kept : α → Bool, (∀ x y, kept x = true → kept y = true → less x y = false) →
    t.filter kept = s.filter kept

/-- One exchange, with the two elements in view. -/
theorem exchangeNext_split (front rest : List α) (x y : α) :
    exchangeNext less (front ++ x :: y :: rest) front.length =
      if less x y then front ++ y :: x :: rest else front ++ x :: y :: rest := by
  have first : (front ++ x :: y :: rest)[front.length]? = some x := by simp
  have second : (front ++ x :: y :: rest)[front.length + 1]? = some y := by simp
  unfold exchangeNext
  rw [first, second]
  by_cases smaller : less x y = true
  · simp only [smaller, if_true]
    rw [List.set_append_right _ _ (Nat.le_refl _), List.set_append_right _ _ (by omega)]
    simp
  · simp only [smaller]
    rfl

/-- The inner loop from some position on carries its element through those that are left. -/
theorem foldl_exchangeNext (front rest placed : List α) (x : α) :
    (List.range' front.length rest.length).foldl (exchangeNext less)
        (front ++ x :: (rest ++ placed)) =
      front ++ ((carry less x rest).1 ++ (carry less x rest).2 :: placed) := by
  induction rest generalizing front x with
  | nil => rfl
  | cons y rest inductionHypothesis =>
    rw [List.length_cons, List.range'_succ, List.foldl_cons, List.cons_append,
      exchangeNext_split]
    unfold carry
    split
    · have later := inductionHypothesis (front ++ [y]) x
      simpa using later
    · have later := inductionHypothesis (front ++ [x]) y
      simpa using later

/-- A pass puts one more element in place. -/
theorem pass_split (rest placed : List α) (x : α) :
    pass less (x :: rest ++ placed) placed.length =
      (carry less x rest).1 ++ (carry less x rest).2 :: placed := by
  have remaining : (x :: rest ++ placed).length - placed.length - 1 = rest.length := by
    rw [List.length_append, List.length_cons]
    omega
  unfold pass
  rw [remaining, List.range_eq_range']
  exact foldl_exchangeNext less [] rest placed x

/-- A pass rearranges the elements. -/
theorem carry_perm (x : α) (rest : List α) :
    ((carry less x rest).1 ++ [(carry less x rest).2]).Perm (x :: rest) := by
  induction rest generalizing x with
  | nil => exact List.Perm.refl _
  | cons y rest inductionHypothesis =>
    unfold carry
    split
    · exact ((inductionHypothesis x).cons y).trans (List.Perm.swap x y rest)
    · exact (inductionHypothesis y).cons x

/-- Carrying an element along changes no length. -/
theorem carry_length (x : α) (rest : List α) : (carry less x rest).1.length = rest.length := by
  have same := (carry_perm less x rest).length_eq
  rw [List.length_append, List.length_singleton, List.length_cons] at same
  omega

/-- A pass exchanges distinguished elements only. -/
theorem carry_stable (x : α) (rest : List α) :
    Stable less (x :: rest) ((carry less x rest).1 ++ [(carry less x rest).2]) := by
  intro kept alike
  induction rest generalizing x with
  | nil => rfl
  | cons y rest inductionHypothesis =>
    unfold carry
    split
    · rename_i smaller
      have apart : ¬ (kept x = true ∧ kept y = true) := by
        rintro ⟨keptX, keptY⟩
        rw [alike x y keptX keptY] at smaller
        cases smaller
      rw [List.cons_append, List.filter_cons, inductionHypothesis x]
      cases keptX : kept x with
      | false => simp [keptX, List.filter_cons]
      | true =>
        have outside : kept y = false := by simpa [keptX] using apart
        simp [keptX, outside]
    · rw [List.cons_append, List.filter_cons, inductionHypothesis y, ← List.filter_cons]

/-- No element is smaller than the one at the end of a pass. -/
theorem carry_least (order : StrictWeakOrder less) (x : α) (rest : List α) :
    ∀ z ∈ x :: rest, less z (carry less x rest).2 = false := by
  have irreflexive (z : α) : less z z = false := by
    by_contra below
    exact absurd (order.asymmetric z z (by simpa using below)) below
  induction rest generalizing x with
  | nil =>
    intro z member
    rw [List.mem_singleton.mp member]
    exact irreflexive x
  | cons y rest inductionHypothesis =>
    unfold carry
    split
    · rename_i smaller
      have least := inductionHypothesis x
      intro z member
      rcases List.mem_cons.mp member with rfl | member
      · exact least z List.mem_cons_self
      rcases List.mem_cons.mp member with rfl | later
      · -- the element left behind is greater than the one carried on
        by_contra below
        rcases order.between z x _ (by simpa using below) with under | under
        · exact absurd (order.asymmetric x z smaller) (by simpa using under)
        · exact absurd (least x List.mem_cons_self) (by simpa using under)
      · exact least z (List.mem_cons_of_mem x later)
    · rename_i notSmaller
      have least := inductionHypothesis y
      intro z member
      rcases List.mem_cons.mp member with rfl | later
      · by_contra below
        rcases order.between z y _ (by simpa using below) with under | under
        · exact notSmaller under
        · exact absurd (least y List.mem_cons_self) (by simpa using under)
      · exact least z later

/-- The outer loop sorts the elements that are not in place yet. -/
theorem foldl_pass (n : ℕ) (front placed : List α) (size : front.length = n) :
    ∃ sorted, (List.range' placed.length n).foldl (pass less) (front ++ placed) =
        sorted ++ placed ∧ sorted.Perm front ∧ Stable less front sorted ∧
      (StrictWeakOrder less →
        sorted.Pairwise (fun earlier later => less earlier later = false)) := by
  induction n generalizing front placed with
  | zero =>
    obtain rfl := List.length_eq_zero_iff.mp size
    exact ⟨[], rfl, List.Perm.refl _, fun _ _ => rfl, fun _ => List.Pairwise.nil⟩
  | succ n inductionHypothesis =>
    cases front with
    | nil => simp at size
    | cons x rest =>
      obtain ⟨sorted, reached, rearranged, stable, ordered⟩ :=
        inductionHypothesis (carry less x rest).1 ((carry less x rest).2 :: placed) (by
          rw [carry_length]
          simpa using size)
      refine ⟨sorted ++ [(carry less x rest).2], ?_, ?_, ?_, ?_⟩
      · rw [List.range'_succ, List.foldl_cons, pass_split]
        simpa using reached
      · exact (rearranged.append_right _).trans (carry_perm less x rest)
      · intro kept alike
        rw [List.filter_append, stable kept alike, ← List.filter_append]
        exact carry_stable less x rest kept alike
      · intro order
        rw [List.pairwise_append]
        refine ⟨ordered order, List.pairwise_singleton _ _, ?_⟩
        intro earlier member last isLast
        rw [List.mem_singleton.mp isLast]
        refine carry_least less order x rest earlier ((carry_perm less x rest).subset ?_)
        exact List.mem_append_left _ (rearranged.subset member)

/-- Sorting rearranges the elements, keeps the order of those that the comparison does not
distinguish, and leaves no element before a greater one. -/
theorem bubbleSort_law (s : List α) :
    (bubbleSort less s).Perm s ∧ Stable less s (bubbleSort less s) ∧
      (StrictWeakOrder less →
        (bubbleSort less s).Pairwise (fun earlier later => less earlier later = false)) := by
  obtain ⟨sorted, reached, law⟩ := foldl_pass less s.length s [] rfl
  rw [List.append_nil, List.append_nil] at reached
  rw [bubbleSort, List.range_eq_range']
  exact reached ▸ law

end AvalancheParallel.BubbleSort
