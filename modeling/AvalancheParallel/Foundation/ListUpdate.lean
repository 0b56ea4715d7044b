import Mathlib.Algebra.GroupWithZero.Nat
import Mathlib.Data.List.Perm.Basic
import Mathlib.Data.List.Range
import Mathlib.Logic.Function.Basic

/-!
# Replacing an element of a list

What `List.set` does to the sums, selections and numberings of a list: the replaced
element gives its contribution back and the new one adds its own.

An array of slots of which the first `count` are still to be drawn is shuffled as it is
read: a draw reads one of them and puts what the last of them holds in its place, so that
the others are again the first slots. What has been drawn and what the first slots hold is
always a permutation of the array.
-/

namespace AvalancheParallel.ListUpdate

universe u v
variable {α : Type u} {β : Type v}

/-- The sum changes by the difference of the two elements. -/
theorem sum_map_set (f : α → ℕ) {list : List α} {index : ℕ} {element : α}
    (here : list[index]? = some element) (other : α) :
    ((list.set index other).map f).sum + f element = (list.map f).sum + f other := by
  induction list generalizing index with
  | nil => simp at here
  | cons first rest inductionHypothesis =>
    cases index with
    | zero =>
      obtain rfl : first = element := by simpa using here
      simp only [List.set_cons_zero, List.map_cons, List.sum_cons]
      omega
    | succ index =>
      have later := inductionHypothesis (by simpa using here)
      simp only [List.set_cons_succ, List.map_cons, List.sum_cons]
      omega

/-- Replacing an element of a list exchanges what it contributes. -/
theorem filterMap_set_perm (f : α → Option β) {list : List α} {index : ℕ}
    {old : α} (here : list[index]? = some old) (new : α) :
    ((f old).toList ++ (list.set index new).filterMap f).Perm
      ((f new).toList ++ list.filterMap f) := by
  induction list generalizing index with
  | nil => simp at here
  | cons first rest inductionHypothesis =>
    cases index with
    | zero =>
      obtain rfl : first = old := by simpa using here
      have split : ∀ element, (element :: rest).filterMap f =
          (f element).toList ++ rest.filterMap f := by
        intro element
        cases same : f element <;> simp [same]
      rw [List.set_cons_zero, split, split, ← List.append_assoc, ← List.append_assoc]
      exact List.perm_append_comm.append_right _
    | succ index =>
      have later := inductionHypothesis (by simpa using here)
      cases same : f first with
      | none => simpa [same] using later
      | some value =>
        simp only [List.set_cons_succ, List.filterMap_cons, same]
        exact (List.perm_middle.trans (later.cons value)).trans List.perm_middle.symm

/-- The replaced element and the new list against the new element and the old list. -/
theorem cons_set_perm {list : List α} {index : ℕ} {old : α} (here : list[index]? = some old)
    (new : α) : (old :: list.set index new).Perm (new :: list) := by
  simpa using filterMap_set_perm some here new

/-- One element of the numbered list and the others; replacing it leaves the others alone. -/
theorem zipIdx_set_perm {list : List α} {index : ℕ} {element : α}
    (here : list[index]? = some element) (offset : ℕ) :
    ∃ others, (list.zipIdx offset).Perm ((element, offset + index) :: others) ∧
      ∀ other, ((list.set index other).zipIdx offset).Perm ((other, offset + index) :: others) := by
  induction list generalizing index offset with
  | nil => simp at here
  | cons first rest inductionHypothesis =>
    cases index with
    | zero =>
      obtain rfl : first = element := by simpa using here
      exact ⟨rest.zipIdx (offset + 1), by simp, by simp⟩
    | succ index =>
      obtain ⟨others, before, after⟩ := inductionHypothesis (by simpa using here) (offset + 1)
      have position : offset + (index + 1) = offset + 1 + index := by omega
      refine ⟨(first, offset) :: others, ?_, ?_⟩
      · rw [List.zipIdx_cons, position]
        exact (before.cons _).trans (List.Perm.swap _ _ _)
      · intro other
        rw [List.set_cons_succ, List.zipIdx_cons, position]
        exact ((after other).cons _).trans (List.Perm.swap _ _ _)

end AvalancheParallel.ListUpdate

namespace AvalancheParallel.LazyShuffle

universe u
variable {α : Type u}

/-- What the first slots hold. -/
def front (slots : ℕ → α) (count : ℕ) : List α := (List.range count).map slots

/-- A write to a slot replaces an element of the front. -/
theorem front_update (slots : ℕ → α) (count index : ℕ) (value : α) :
    front (Function.update slots index value) count = (front slots count).set index value := by
  apply List.ext_getElem (by simp [front])
  intro position first second
  by_cases same : index = position
  · subst same
    simp [front]
  · simp [front, same, Ne.symm same]

/-- A draw takes the element of one slot and leaves the others. -/
theorem draw_perm (slots : ℕ → α) {count index : ℕ} (inside : index < count + 1) :
    (slots index :: front (Function.update slots index (slots count)) count).Perm
      (front slots (count + 1)) := by
  have last : front slots (count + 1) = front slots count ++ [slots count] := by
    simp [front, List.range_succ]
  rw [last, front_update]
  rcases Nat.lt_or_eq_of_le (Nat.le_of_lt_succ inside) with before | rfl
  · have here : (front slots count)[index]? = some (slots index) := by
      simp [front, before]
    exact (ListUpdate.cons_set_perm here (slots count)).trans
      (List.perm_append_singleton (slots count) _).symm
  · rw [List.set_eq_of_length_le (by simp [front])]
    exact (List.perm_append_singleton (slots index) _).symm

end AvalancheParallel.LazyShuffle
