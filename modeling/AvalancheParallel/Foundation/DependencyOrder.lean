import Mathlib.Data.Fintype.Card
import Mathlib.Data.Set.Finite.Basic
import Mathlib.Logic.Relation
import Mathlib.Order.WellFounded

/-!
# Executing in the order of dependencies

A relation is acyclic when no element reaches itself by one or more steps. Every nonempty
finite set then has an element without a successor inside the set.

Elements are executed one after another, each after everything it needs. When no
further element can be executed, and needing is acyclic, the executed elements are
exactly those whose dependencies, direct and indirect, are all available.
-/

namespace AvalancheParallel.FiniteDag

universe u
variable {α : Type u}

/-- No element reaches itself. -/
def Acyclic (edge : α → α → Prop) : Prop := ∀ element, ¬ Relation.TransGen edge element element

/-- A nonempty finite set has an element with no successor in the set. Walking
forward is well founded because the transitive closure is irreflexive. -/
theorem Acyclic.exists_sink {edge : α → α → Prop} (acyclic : Acyclic edge)
    (members : Finset α) (nonempty : members.Nonempty) :
    ∃ sink ∈ members, ∀ other ∈ members, ¬ edge sink other := by
  let reaches : members → members → Prop := fun first second =>
    Relation.TransGen edge second.1 first.1
  have transitive : IsTrans members reaches := ⟨fun _ _ _ near far => far.trans near⟩
  have irreflexive : Std.Irrefl reaches := ⟨fun element cycle => acyclic element.1 cycle⟩
  have forward : WellFounded reaches := Finite.wellFounded_of_trans_of_irrefl reaches
  obtain ⟨start, inside⟩ := nonempty
  obtain ⟨sink, _, minimal⟩ := forward.has_min Set.univ ⟨⟨start, inside⟩, trivial⟩
  refine ⟨sink.1, sink.2, ?_⟩
  intro other member successor
  exact minimal ⟨other, member⟩ trivial (Relation.TransGen.single successor)

end AvalancheParallel.FiniteDag

namespace AvalancheParallel.DependencyOrder

open AvalancheParallel.FiniteDag

universe u
variable {α : Type u} {needs : α → α → Prop}

/-- Every element of the list comes after everything it needs. -/
def Respects (needs : α → α → Prop) (executed : List α) : Prop :=
  ∀ before element after, executed = before ++ element :: after →
    ∀ dependency, needs element dependency → dependency ∈ before

/-- An element may be executed once everything it needs has been. -/
theorem Respects.snoc {executed : List α} (respects : Respects needs executed) {next : α}
    (ready : ∀ dependency, needs next dependency → dependency ∈ executed) :
    Respects needs (executed ++ [next]) := by
  intro before element after split dependency needed
  rcases List.eq_nil_or_concat after with rfl | ⟨rest, last, rfl⟩
  · obtain ⟨rfl, same⟩ := List.append_inj' split rfl
    obtain rfl := List.head_eq_of_cons_eq same
    exact ready dependency needed
  · have longer : executed ++ [next] = (before ++ element :: rest) ++ [last] := by simpa using split
    obtain ⟨rfl, _⟩ := List.append_inj' longer rfl
    exact respects before element rest rfl dependency needed

/-- The elements before the last one come after everything they need. -/
theorem Respects.of_snoc {executed : List α} {last : α}
    (respects : Respects needs (executed ++ [last])) : Respects needs executed := by
  rintro before element after rfl
  exact respects before element (after ++ [last]) (by simp)

/-- Everything the last element needs comes before it. -/
theorem Respects.ready_last {executed : List α} {last : α}
    (respects : Respects needs (executed ++ [last])) :
    ∀ dependency, needs last dependency → dependency ∈ executed :=
  respects executed last [] rfl

/-- What an executed element needs has been executed, also indirectly. -/
theorem Respects.closed {executed : List α} (respects : Respects needs executed) {element : α}
    (done : element ∈ executed) {dependency : α}
    (needed : Relation.TransGen needs element dependency) : dependency ∈ executed := by
  have direct : ∀ first second, first ∈ executed → needs first second → second ∈ executed := by
    intro first second member edge
    obtain ⟨before, after, rfl⟩ := List.append_of_mem member
    exact List.mem_append_left _ (respects before first after rfl second edge)
  induction needed with
  | single edge => exact direct _ _ done edge
  | tail _ edge inductionHypothesis => exact direct _ _ inductionHypothesis edge

/-- Every available element that is left needs one that has not been executed. -/
def Exhausted (needs : α → α → Prop) (available : Finset α) (executed : List α) : Prop :=
  ∀ element ∈ available, element ∉ executed →
    ∃ dependency, needs element dependency ∧ dependency ∉ executed

/-- The elements executed until none is ready. -/
theorem executed_iff (acyclic : Acyclic needs) (available : Finset α) {executed : List α}
    (inside : ∀ element ∈ executed, element ∈ available) (respects : Respects needs executed)
    (exhausted : Exhausted needs available executed) (element : α) :
    element ∈ executed ↔ element ∈ available ∧
      ∀ dependency, Relation.TransGen needs element dependency → dependency ∈ available := by
  classical
  constructor
  · intro done
    exact ⟨inside element done, fun dependency needed =>
      inside dependency (respects.closed done needed)⟩
  · rintro ⟨here, all⟩
    by_contra left
    -- among the elements wrongly left, one needs none of the others
    let stuck := available.filter (fun other => other ∉ executed ∧
      ∀ dependency, Relation.TransGen needs other dependency → dependency ∈ available)
    obtain ⟨sink, member, last⟩ := acyclic.exists_sink stuck
      ⟨element, Finset.mem_filter.mpr ⟨here, left, all⟩⟩
    obtain ⟨sinkAvailable, sinkLeft, sinkAll⟩ := Finset.mem_filter.mp member
    obtain ⟨dependency, needed, missing⟩ := exhausted sink sinkAvailable sinkLeft
    refine last dependency (Finset.mem_filter.mpr ⟨?_, missing, ?_⟩) needed
    · exact sinkAll dependency (Relation.TransGen.single needed)
    · intro further path
      exact sinkAll further (Relation.TransGen.head needed path)

end AvalancheParallel.DependencyOrder
