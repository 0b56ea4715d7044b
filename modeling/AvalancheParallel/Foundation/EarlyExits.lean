import Mathlib.Data.List.Chain
import Mathlib.Data.Nat.Init

/-!
# Checks and searches that end early

A validation returns the error of the first check that fails, and none when all of them
pass. A loop that compares each element with its successor and leaves at the first failed
comparison decides whether the list is a chain; for a transitive relation that is the same
as comparing every element with every later one.

A binary search over positions probes the middle and goes right of it when the probe says
so. When the probes say right up to a boundary and left from there on, the search ends at
the boundary. A probe that fails ends it.
-/

namespace AvalancheParallel.EarlyExits

universe u
variable {α : Type u}

/-- A check that fails first decides the error of a sequence of checks. -/
theorem check_eq_none {ε : Type u} {failed : Prop} [Decidable failed] (err : ε)
    (later : Option ε) :
    (if failed then some err else later) = none ↔ ¬ failed ∧ later = none := by
  by_cases first : failed
  · simp [first]
  · simp [first]

/-- Test each element against its successor, up to the first failure. -/
def allAdjacent (test : α → α → Bool) : List α → Bool
  | first :: second :: rest =>
    if test first second then allAdjacent test (second :: rest) else false
  | _ => true

/-- The loop succeeds exactly on chains. -/
theorem allAdjacent_iff (test : α → α → Bool) (elements : List α) :
    allAdjacent test elements = true ↔
      elements.IsChain (fun first second => test first second = true) := by
  induction elements with
  | nil => simp [allAdjacent]
  | cons first rest inductionHypothesis =>
    cases rest with
    | nil => simp [allAdjacent]
    | cons second others =>
      rw [List.isChain_cons_cons, ← inductionHypothesis]
      by_cases passed : test first second = true
      · simp [allAdjacent, passed]
      · simp [allAdjacent, passed]

/-- With a transitive comparison, every element passes against every later one. -/
theorem allAdjacent_iff_pairwise (test : α → α → Bool)
    (transitive : ∀ first second third, test first second = true → test second third = true →
      test first third = true) (elements : List α) :
    allAdjacent test elements = true ↔
      elements.Pairwise (fun first second => test first second = true) := by
  have trans : Trans (fun first second => test first second = true)
      (fun first second => test first second = true)
      (fun first second => test first second = true) :=
    ⟨fun {first second third} before after => transitive first second third before after⟩
  rw [allAdjacent_iff, List.isChain_iff_pairwise]

/-- The search between `low` and `bound`, the latter excluded; `none` when a probe fails or the
rounds run out. -/
def search (probe : ℕ → Option Bool) : ℕ → ℕ → ℕ → Option ℕ
  | 0, _, _ => none
  | rounds + 1, low, bound =>
    if low < bound then
      let mid := (low + (bound - 1)) / 2
      match probe mid with
      | none => none
      | some true => search probe rounds (mid + 1) bound
      | some false => search probe rounds low mid
    else some low

/-- The search ends at the boundary. -/
theorem search_eq (probe : ℕ → Option Bool) {rounds bound boundary : ℕ} (low : ℕ)
    (enough : bound - low < rounds) (above : low ≤ boundary) (below : boundary ≤ bound)
    (right : ∀ position, low ≤ position → position < boundary → probe position = some true)
    (left : ∀ position, boundary ≤ position → position < bound → probe position = some false) :
    search probe rounds low bound = some boundary := by
  induction rounds generalizing low bound with
  | zero => omega
  | succ rounds inductionHypothesis =>
    rw [search]
    by_cases open_ : low < bound
    · rw [if_pos open_]
      dsimp only
      generalize middle : (low + (bound - 1)) / 2 = mid
      have inside : low ≤ mid ∧ mid < bound := by omega
      by_cases before : mid < boundary
      · rw [right mid inside.1 before]
        apply inductionHypothesis (mid + 1) (by omega) before below
        · intro position past short
          exact right position (by omega) short
        · exact left
      · rw [left mid (by omega) inside.2]
        apply inductionHypothesis low (by omega) above (by omega)
        · exact right
        · intro position past short
          exact left position past (by omega)
    · rw [if_neg open_]
      congr 1
      omega

end AvalancheParallel.EarlyExits
