import AvalancheParallel.Consensus.BatchProcessing

/-!
# Failed calls and their repetition

`ProcessVertex` enters its vertex in the map before it asks the vertex for anything, and
takes nothing back when an answer is an error. A failed call therefore always leaves the
vertex behind, and the next call finds it there and returns at once: what the failed
call did not get to is never done.
-/

namespace AvalancheParallel.Consensus

open AvalancheParallel.RangeLoop

variable {ID : Type} [DecidableEq ID]

/-- If the call returns an error of `Parents`, `Txs` or `InputIDs`, the maps are as before it, and
repeating the call with any answers leads to the state to which it would lead without it. -/
def AllOrNothing (replies : ProcessReplies) (vertex : Vertex ID) (e : ParallelEngine ID) : Prop :=
  ∀ failure ∈ (processVertex replies vertex e).2,
    failure ∈ [Failure.parents, Failure.txs, Failure.inputIDs] →
    (processVertex replies vertex e).1.vertices = e.vertices ∧
    (processVertex replies vertex e).1.edgeMap = e.edgeMap ∧
    (processVertex replies vertex e).1.conflicts = e.conflicts ∧
    ∀ again, (processVertex again vertex (processVertex replies vertex e).1).1 =
      (processVertex again vertex e).1

/-- The vertex is known, or every call on it up to the end of `ProcessVertex` or a failed `Verify`
succeeds; `InputIDs` is called on undecided transactions only. -/
def Answers (replies : ProcessReplies) (vertex : Vertex ID) (e : ParallelEngine ID) : Prop :=
  vertex.id ∈ e.vertices ∨ replies.parents = true ∧ (replies.verify = false ∨
    replies.txs = true ∧ ∀ index tx, vertex.txs[index]? = some tx → tx.id ∉ e.decided →
      replies.inputIDs index = true)

/-- The registration loop fails exactly at a transaction whose inputs it does not get. -/
theorem enrolled_completes_iff (decided : Finset ID) (inputIDs : ℕ → Bool) (start : ℕ)
    (txs : List (Tx ID)) :
    (enrolled decided inputIDs start txs).2 = none ↔
      ∀ index tx, txs[index]? = some tx → tx.id ∉ decided → inputIDs (start + index) = true := by
  induction txs generalizing start with
  | nil => simp [enrolled]
  | cons first rest inductionHypothesis =>
    have split : (∀ index tx, (first :: rest)[index]? = some tx → tx.id ∉ decided →
        inputIDs (start + index) = true) ↔
        (first.id ∉ decided → inputIDs start = true) ∧
          ∀ index tx, rest[index]? = some tx → tx.id ∉ decided →
            inputIDs (start + 1 + index) = true := by
      constructor
      · intro all
        refine ⟨all 0 first rfl, ?_⟩
        intro index tx here undecided
        have later := all (index + 1) tx here undecided
        rw [← Nat.add_assoc, Nat.add_right_comm] at later
        exact later
      · rintro ⟨head, tail⟩ index tx here undecided
        cases index with
        | zero =>
          obtain rfl := Option.some.inj here
          exact head undecided
        | succ index =>
          have later := tail index tx here undecided
          rw [Nat.add_right_comm, Nat.add_assoc] at later
          exact later
    rw [split, ← inductionHypothesis (start + 1)]
    by_cases decidedFirst : first.id ∈ decided
    · simp [enrolled, decidedFirst]
    · cases answered : inputIDs start with
      | false => simp [enrolled, decidedFirst, answered]
      | true => simp [enrolled, decidedFirst, answered]

/-- Enrolling fails only when the inputs of a transaction are not available. -/
theorem enrolled_failure (decided : Finset ID) (inputIDs : ℕ → Bool) (start : ℕ)
    (txs : List (Tx ID)) {failure : Failure}
    (failed : (enrolled decided inputIDs start txs).2 = some failure) : failure = .inputIDs := by
  induction txs generalizing start with
  | nil => cases failed
  | cons first rest inductionHypothesis =>
    unfold enrolled at failed
    split at failed
    · exact inductionHypothesis (start + 1) failed
    · split at failed
      · exact (Option.some.inj failed).symm
      · exact inductionHypothesis (start + 1) failed

/-- The call returns an error of one of the three methods exactly when one of them fails. -/
theorem processVertex_answers_iff (replies : ProcessReplies) (vertex : Vertex ID)
    (e : ParallelEngine ID) :
    (∀ failure ∈ (processVertex replies vertex e).2,
      failure ∉ [Failure.parents, Failure.txs, Failure.inputIDs]) ↔ Answers replies vertex e := by
  unfold Answers
  by_cases known : vertex.id ∈ e.vertices
  · rw [processVertex_known replies vertex e known]
    exact iff_of_true (fun _ impossible => nomatch impossible) (Or.inl known)
  unfold processVertex
  simp only [known, if_false, false_or]
  cases parents : replies.parents with
  | false => simp
  | true =>
    cases verify : replies.verify with
    | false => cases replies.reject <;> simp
    | true =>
      cases txs : replies.txs with
      | false => simp
      | true =>
        simp only [Bool.not_true, Bool.false_eq_true, if_false, forRange, registerLoop_enrolled,
          true_and, reduceCtorEq, false_or]
        have completes := enrolled_completes_iff e.decided replies.inputIDs 0 vertex.txs
        simp only [Nat.zero_add] at completes
        rw [← completes]
        change (∀ failure ∈ (enrolled e.decided replies.inputIDs 0 vertex.txs).2, _) ↔ _
        cases outcome : (enrolled e.decided replies.inputIDs 0 vertex.txs).2 with
        | none => simp
        | some failure =>
          rw [enrolled_failure e.decided replies.inputIDs 0 vertex.txs outcome]
          simp

/-- A call that returns an error has entered a vertex that was not there before. -/
theorem processVertex_failed_changes {replies : ProcessReplies} {vertex : Vertex ID}
    {e : ParallelEngine ID} {failure : Failure}
    (failed : (processVertex replies vertex e).2 = some failure) :
    (processVertex replies vertex e).1.vertices ≠ e.vertices := by
  have fresh : vertex.id ∉ e.vertices := by
    intro known
    rw [processVertex_known replies vertex e known] at failed
    cases failed
  intro same
  rw [(processVertex_new replies vertex e fresh).vertices] at same
  exact fresh (same ▸ Finmap.mem_insert.mpr (Or.inl rfl))

/-- A call is all or nothing exactly when it is not asked to undo anything. -/
theorem allOrNothing_iff (replies : ProcessReplies) (vertex : Vertex ID) (e : ParallelEngine ID) :
    AllOrNothing replies vertex e ↔ Answers replies vertex e := by
  rw [← processVertex_answers_iff]
  constructor
  · intro undone failure failed listed
    exact processVertex_failed_changes failed (undone failure failed listed).1
  · intro silent failure failed listed
    exact absurd listed (silent failure failed)

/-- A vertex whose `Txs` fails once is skipped from then on: its transaction is not registered. -/
theorem failed_txs_not_undone :
    let vertex : Vertex ℕ := ⟨1, [], [⟨2, [3]⟩], 0⟩
    let replies : ProcessReplies := { ProcessReplies.succeed with txs := false }
    let failed := processVertex replies vertex newParallelEngine
    failed.2 = some .txs ∧
      (processVertex .succeed vertex failed.1).1.conflicts ≠
        (processVertex .succeed vertex newParallelEngine).1.conflicts ∧
      ¬ AllOrNothing replies vertex newParallelEngine := by
  intro vertex replies failed
  refine ⟨by decide +kernel, by decide +kernel, ?_⟩
  intro undone
  obtain ⟨same, _⟩ := undone .txs (by decide +kernel) (by decide)
  exact absurd same (by decide +kernel)

end AvalancheParallel.Consensus
