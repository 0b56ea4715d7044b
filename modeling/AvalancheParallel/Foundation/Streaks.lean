import Mathlib.Data.List.DropRight

/-!
# Streaks

The elements at the end of a list that all have a property, and how many there are. A list has
that many consecutive elements with the property somewhere when one of its beginnings ends with
so many.
-/

namespace AvalancheParallel.Streaks

universe u
variable {α : Type u} (p : α → Bool)

/-- The number of elements at the end that have the property. -/
def streak (l : List α) : ℕ := (l.rtakeWhile p).length

/-- Some consecutive elements, as many as given, have the property. -/
def HasStreak (l : List α) (n : ℕ) : Prop :=
  ∃ before run after, l = before ++ run ++ after ∧ run.length = n ∧ ∀ x ∈ run, p x = true

/-- One more element lengthens the streak or ends it. -/
theorem streak_concat (l : List α) (x : α) :
    streak p (l ++ [x]) = if p x then streak p l + 1 else 0 := by
  unfold streak
  rw [List.rtakeWhile_concat]
  split <;> simp

variable {p}

/-- Elements with the property at the end are part of the streak. -/
theorem length_le_streak (before run : List α) (all : ∀ x ∈ run, p x = true) :
    run.length ≤ streak p (before ++ run) := by
  induction run using List.reverseRecOn with
  | nil => exact Nat.zero_le _
  | append_singleton run last inductionHypothesis =>
    rw [← List.append_assoc, streak_concat, if_pos (all last (by simp)), List.length_append,
      List.length_singleton]
    exact Nat.succ_le_succ (inductionHypothesis (fun x member => all x (by simp [member])))

/-- A streak that is long enough is there. -/
theorem hasStreak_of_le {l : List α} {n : ℕ} (enough : n ≤ streak p l) : HasStreak p l n := by
  have whole : l.rdropWhile p ++ l.rtakeWhile p = l := List.rdropWhile_append_rtakeWhile
  refine ⟨l.rdropWhile p, (l.rtakeWhile p).take n, (l.rtakeWhile p).drop n, ?_, ?_, ?_⟩
  · rw [List.append_assoc, List.take_append_drop, whole]
  · exact List.length_take_of_le enough
  · intro x member
    exact List.mem_rtakeWhile_imp (List.mem_of_mem_take member)

/-- One more element makes a streak only at the end. -/
theorem hasStreak_concat_iff (l : List α) (x : α) (n : ℕ) :
    HasStreak p (l ++ [x]) n ↔ HasStreak p l n ∨ n ≤ streak p (l ++ [x]) := by
  constructor
  · rintro ⟨before, run, after, split, length, all⟩
    cases after using List.reverseRecOn with
    | nil =>
      rw [List.append_nil] at split
      refine Or.inr ?_
      rw [split, ← length]
      exact length_le_streak before run all
    | append_singleton after last _ =>
      rw [← List.append_assoc] at split
      obtain ⟨same, _⟩ := List.append_inj' split rfl
      exact Or.inl ⟨before, run, after, same, length, all⟩
  · rintro (⟨before, run, after, rfl, length, all⟩ | enough)
    · exact ⟨before, run, after ++ [x], by simp, length, all⟩
    · exact hasStreak_of_le enough

/-- Without elements there is the empty streak only. -/
theorem hasStreak_nil_iff (n : ℕ) : HasStreak p [] n ↔ n = 0 := by
  constructor
  · rintro ⟨before, run, after, split, length, _⟩
    obtain ⟨front, _⟩ := List.append_eq_nil_iff.mp split.symm
    rw [← length, (List.append_eq_nil_iff.mp front).2]
    rfl
  · rintro rfl
    exact ⟨[], [], [], rfl, rfl, by simp⟩

end AvalancheParallel.Streaks
