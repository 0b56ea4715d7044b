import AvalancheParallel.Foundation.SliceSort

/-!
# Sorting by exchanges

Two nested loops over positions: for each position `i`, every later position `j` is
compared with it and the two elements are exchanged when the first is the greater. A pass
leaves at `i` an element that is smallest among those from `i` on and moves each
element it displaces to the position of the element that displaced it.
-/

namespace AvalancheParallel.ExchangeSort

open AvalancheParallel.SliceSort

universe u
variable {α : Type u} (greater : α → α → Bool)

/-- Exchange the elements at two positions when the first is the greater. -/
def exchangeAt (i : ℕ) (s : List α) (j : ℕ) : List α :=
  match s[i]?, s[j]? with
  | some x, some y => if greater x y then (s.set i y).set j x else s
  | _, _ => s

/-- The inner loop, over the positions after `i`. -/
def pass (s : List α) (i : ℕ) : List α :=
  (List.range' (i + 1) (s.length - (i + 1))).foldl (exchangeAt greater i) s

/-- Both loops. -/
def exchangeSort (s : List α) : List α := (List.range s.length).foldl (pass greater) s

/-- What a pass does to the element it is for and to those after it. -/
def select (x : α) : List α → α × List α
  | [] => (x, [])
  | y :: rest =>
    if greater x y then ((select y rest).1, x :: (select y rest).2)
    else ((select x rest).1, y :: (select x rest).2)

/-- One exchange, with the two elements in view. -/
theorem exchangeAt_split (front passed rest : List α) (x y : α) :
    exchangeAt greater front.length (front ++ x :: (passed ++ y :: rest))
        (front.length + 1 + passed.length) =
      if greater x y then front ++ y :: (passed ++ x :: rest)
      else front ++ x :: (passed ++ y :: rest) := by
  have first : (front ++ x :: (passed ++ y :: rest))[front.length]? = some x := by simp
  have position : front.length + 1 + passed.length - front.length = passed.length + 1 := by omega
  have second : (front ++ x :: (passed ++ y :: rest))[front.length + 1 + passed.length]? =
      some y := by
    rw [List.getElem?_append_right (by omega), position]
    simp
  unfold exchangeAt
  rw [first, second]
  by_cases exchanged : greater x y = true
  · simp only [exchanged, if_true]
    rw [List.set_append_right _ _ (Nat.le_refl _), Nat.sub_self, List.set_cons_zero,
      List.set_append_right _ _ (by omega), position, List.set_cons_succ,
      List.set_append_right _ _ (Nat.le_refl _), Nat.sub_self, List.set_cons_zero]
  · simp only [exchanged]
    rfl

/-- The inner loop from some position on selects among the elements that are left. -/
theorem foldl_exchangeAt (front passed rest : List α) (x : α) :
    (List.range' (front.length + 1 + passed.length) rest.length).foldl
        (exchangeAt greater front.length) (front ++ x :: (passed ++ rest)) =
      front ++ (select greater x rest).1 :: (passed ++ (select greater x rest).2) := by
  induction rest generalizing x passed with
  | nil => rfl
  | cons y rest inductionHypothesis =>
    rw [List.length_cons, List.range'_succ, List.foldl_cons, exchangeAt_split]
    unfold select
    split
    · have later := inductionHypothesis (passed ++ [x]) y
      simpa [Nat.add_assoc] using later
    · have later := inductionHypothesis (passed ++ [y]) x
      simpa [Nat.add_assoc] using later

/-- A pass selects among the elements from its position on. -/
theorem pass_split (front rest : List α) (x : α) :
    pass greater (front ++ x :: rest) front.length =
      front ++ (select greater x rest).1 :: (select greater x rest).2 := by
  have remaining : (front ++ x :: rest).length - (front.length + 1) = rest.length := by
    rw [List.length_append, List.length_cons]
    omega
  unfold pass
  rw [remaining]
  exact foldl_exchangeAt greater front [] rest x

/-- Selecting rearranges the elements. -/
theorem select_perm (x : α) (rest : List α) :
    ((select greater x rest).1 :: (select greater x rest).2).Perm (x :: rest) := by
  induction rest generalizing x with
  | nil => exact List.Perm.refl _
  | cons y rest inductionHypothesis =>
    unfold select
    split
    · exact (List.Perm.swap _ _ _).trans ((inductionHypothesis y).cons x)
    · exact ((List.Perm.swap _ _ _).trans ((inductionHypothesis x).cons y)).trans
        (List.Perm.swap _ _ _)

/-- No element is smaller than the one selected. -/
theorem select_least (order : StrictWeakOrder (fun a b => greater b a)) (x : α) (rest : List α) :
    ∀ z ∈ x :: rest, greater (select greater x rest).1 z = false := by
  have irreflexive (z : α) : greater z z = false := by
    by_contra above
    exact absurd (order.asymmetric z z (by simpa using above)) above
  induction rest generalizing x with
  | nil =>
    intro z member
    rw [List.mem_singleton.mp member]
    exact irreflexive x
  | cons y rest inductionHypothesis =>
    -- an element below the selected one is below, or above, the candidate that was kept
    unfold select
    split
    · rename_i above
      have least := inductionHypothesis y
      intro z member
      rcases List.mem_cons.mp member with rfl | later
      · by_contra smaller
        rcases order.between _ y _ (by simpa using smaller) with below | below
        · exact absurd (order.asymmetric y z above) (by simpa using below)
        · exact absurd (least y List.mem_cons_self) (by simpa using below)
      · exact least z later
    · rename_i notAbove
      have least := inductionHypothesis x
      intro z member
      rcases List.mem_cons.mp member with rfl | later
      · exact least z List.mem_cons_self
      · rcases List.mem_cons.mp later with rfl | later
        · by_contra smaller
          rcases order.between _ x _ (by simpa using smaller) with below | below
          · exact notAbove below
          · exact absurd (least x List.mem_cons_self) (by simpa using below)
        · exact least z (List.mem_cons_of_mem x later)

/-- Both loops, from some position on, rearrange the elements that are left and sort them. -/
theorem foldl_pass (n : ℕ) (front rest : List α) (size : rest.length = n) :
    ∃ sorted, (List.range' front.length n).foldl (pass greater) (front ++ rest) =
      front ++ sorted ∧ sorted.Perm rest ∧
        (StrictWeakOrder (fun a b => greater b a) →
          sorted.Pairwise (fun earlier later => greater earlier later = false)) := by
  induction n generalizing front rest with
  | zero =>
    obtain rfl := List.length_eq_zero_iff.mp size
    exact ⟨[], rfl, List.Perm.refl _, fun _ => List.Pairwise.nil⟩
  | succ n inductionHypothesis =>
    cases rest with
    | nil => simp at size
    | cons x rest =>
      have selected := select_perm greater x rest
      have length : (select greater x rest).2.length = n := by
        have same := selected.length_eq
        rw [List.length_cons] at same
        omega
      obtain ⟨sorted, reached, rearranged, ordered⟩ :=
        inductionHypothesis (front ++ [(select greater x rest).1]) (select greater x rest).2 length
      refine ⟨(select greater x rest).1 :: sorted, ?_, (rearranged.cons _).trans selected, ?_⟩
      · rw [List.range'_succ, List.foldl_cons, pass_split]
        simpa using reached
      · intro order
        refine List.pairwise_cons.mpr ⟨?_, ordered order⟩
        intro later member
        exact select_least greater order x rest later
          (selected.subset (List.mem_cons_of_mem _ (rearranged.subset member)))

/-- Sorting by exchanges is a sorting function. -/
def exchangeSortFunction : SortFunction where
  sort := fun less s => exchangeSort (fun first second => less second first) s
  perm := by
    intro T less s
    obtain ⟨sorted, reached, rearranged, _⟩ :=
      foldl_pass (fun first second => less second first) s.length [] s rfl
    rw [exchangeSort, List.range_eq_range']
    exact reached ▸ rearranged
  sorted := by
    intro T less s order
    obtain ⟨sorted, reached, _, ordered⟩ :=
      foldl_pass (fun first second => less second first) s.length [] s rfl
    rw [exchangeSort, List.range_eq_range']
    exact reached ▸ ordered order

end AvalancheParallel.ExchangeSort
