import Mathlib.Data.List.Basic

/-!
# Runs of a step function under a guard

A run applies a total step function to a list of actions. Everything a caller,
a scheduler or an environment may choose is part of the action, so one step
function describes every interleaving. A guard is a condition on a step in the
state before it; `Along` requires it of every step of a run. Invariants are
proved for one guarded step and transported to whole runs here, once.
-/

namespace AvalancheParallel.Runs

universe u v
variable {σ : Type u} {α : Type v} (step : σ → α → σ)

/-- The state reached by performing the actions in order. -/
def run (state : σ) (actions : List α) : σ := actions.foldl step state

/-- Each step of the run meets the guard in the state in which it is taken. -/
def Along (guard : σ → α → Prop) : σ → List α → Prop
  | _, [] => True
  | state, action :: rest => guard state action ∧ Along guard (step state action) rest

instance decidableAlong (guard : σ → α → Prop)
    [decided : ∀ state action, Decidable (guard state action)] :
    ∀ state actions, Decidable (Along step guard state actions)
  | _, [] => inferInstanceAs (Decidable True)
  | state, action :: rest =>
    have := decidableAlong guard (step state action) rest
    inferInstanceAs (Decidable (guard state action ∧ Along step guard (step state action) rest))

/-- The property holds in every state of the run, the first and the last included. -/
def Always (property : σ → Prop) : σ → List α → Prop
  | state, [] => property state
  | state, action :: rest => property state ∧ Always property (step state action) rest

/-- Every state of the run is related to each later one. -/
def Onward (relation : σ → σ → Prop) (state : σ) (actions : List α) : Prop :=
  ∀ first second third, actions = first ++ (second ++ third) →
    relation (run step state first) (run step state (first ++ second))

/-- A run without actions. -/
@[simp] theorem run_nil (state : σ) : run step state [] = state := rfl

/-- A run takes its first action first. -/
@[simp] theorem run_cons (state : σ) (action : α) (rest : List α) :
    run step state (action :: rest) = run step (step state action) rest := rfl

/-- Two runs, one after the other. -/
@[simp] theorem run_append (state : σ) (first second : List α) :
    run step state (first ++ second) = run step (run step state first) second := by
  simp only [run, List.foldl_append]

/-- Guards met one by one are met together. -/
theorem Along.and {first second : σ → α → Prop} {state : σ} {actions : List α}
    (one : Along step first state actions) (other : Along step second state actions) :
    Along step (fun state action => first state action ∧ second state action) state actions := by
  induction actions generalizing state with
  | nil => trivial
  | cons action rest inductionHypothesis =>
    exact ⟨⟨one.1, other.1⟩, inductionHypothesis one.2 other.2⟩

/-- A condition on the actions alone is a guard. -/
theorem Along.of_forall {condition : α → Prop} (state : σ) {actions : List α}
    (holds : ∀ action ∈ actions, condition action) :
    Along step (fun _ action => condition action) state actions := by
  induction actions generalizing state with
  | nil => trivial
  | cons action rest inductionHypothesis =>
    exact ⟨holds action List.mem_cons_self, inductionHypothesis (step state action)
      (fun later member => holds later (List.mem_cons_of_mem action member))⟩

/-- The guard is met along a run when it is met by each action after those before it. -/
theorem along_iff_forall {guard : σ → α → Prop} (state : σ) (actions : List α) :
    Along step guard state actions ↔
      ∀ front action rest, actions = front ++ action :: rest →
        guard (run step state front) action := by
  induction actions generalizing state with
  | nil => simp [Along]
  | cons first others inductionHypothesis =>
    constructor
    · rintro ⟨met, later⟩ front action rest split
      cases front with
      | nil =>
        obtain ⟨rfl, rfl⟩ := List.cons.inj split
        exact met
      | cons head tail =>
        obtain ⟨rfl, rfl⟩ := List.cons.inj split
        exact (inductionHypothesis (step state first)).mp later tail action rest rfl
    · intro met
      refine ⟨met [] first others rfl, (inductionHypothesis (step state first)).mpr ?_⟩
      rintro front action rest rfl
      exact met (first :: front) action rest rfl

/-- A guard implied under an invariant is met along the same runs. -/
theorem Along.imp_of_invariant {guard weaker : σ → α → Prop} (invariant : σ → Prop)
    (preserved : ∀ state action, guard state action → invariant state →
      invariant (step state action))
    (implied : ∀ state action, invariant state → guard state action → weaker state action)
    {state : σ} {actions : List α} (along : Along step guard state actions)
    (initial : invariant state) : Along step weaker state actions := by
  induction actions generalizing state with
  | nil => trivial
  | cons action rest inductionHypothesis =>
    exact ⟨implied state action initial along.1,
      inductionHypothesis along.2 (preserved state action along.1 initial)⟩

/-- What one guarded step preserves holds in every state of a guarded run. -/
theorem Along.always {guard : σ → α → Prop} (invariant : σ → Prop)
    (preserved : ∀ state action, guard state action → invariant state →
      invariant (step state action))
    {state : σ} {actions : List α} (along : Along step guard state actions)
    (initial : invariant state) : Always step invariant state actions := by
  induction actions generalizing state with
  | nil => exact initial
  | cons action rest inductionHypothesis =>
    exact ⟨initial, inductionHypothesis along.2 (preserved state action along.1 initial)⟩

/-- What follows in every state follows along the run. -/
theorem Always.imp {property weaker : σ → Prop} (implied : ∀ state, property state → weaker state)
    {state : σ} {actions : List α} (always : Always step property state actions) :
    Always step weaker state actions := by
  induction actions generalizing state with
  | nil => exact implied state always
  | cons action rest inductionHypothesis =>
    exact ⟨implied state always.1, inductionHypothesis always.2⟩

/-- A property of all states holds after each step. -/
theorem Always.along {property : σ → Prop} {state : σ} {actions : List α}
    (always : Always step property state actions) :
    Along step (fun state action => property (step state action)) state actions := by
  induction actions generalizing state with
  | nil => trivial
  | cons action rest inductionHypothesis =>
    refine ⟨?_, inductionHypothesis always.2⟩
    cases rest with
    | nil => exact always.2
    | cons next others => exact always.2.1

/-- What one guarded step preserves, a guarded run preserves. -/
theorem Along.invariant {guard : σ → α → Prop} (invariant : σ → Prop)
    (preserved : ∀ state action, guard state action → invariant state →
      invariant (step state action))
    {state : σ} {actions : List α} (along : Along step guard state actions)
    (initial : invariant state) : invariant (run step state actions) := by
  induction actions generalizing state with
  | nil => exact initial
  | cons action rest inductionHypothesis =>
    exact inductionHypothesis along.2 (preserved state action along.1 initial)

/-- A property that, as assumed of the actions, a step keeps exactly under the guard holds in
all states of exactly the guarded runs. -/
theorem always_iff_along_of {assumed guard : σ → α → Prop} {property : σ → Prop}
    (invariant : σ → Prop)
    (preserved : ∀ state action, assumed state action → guard state action → invariant state →
      invariant (step state action))
    (kept : ∀ state action, assumed state action → invariant state → property state →
      (property (step state action) ↔ guard state action))
    {state : σ} {actions : List α} (along : Along step assumed state actions)
    (initial : invariant state) (holds : property state) :
    Always step property state actions ↔ Along step guard state actions := by
  induction actions generalizing state with
  | nil => exact iff_of_true holds trivial
  | cons action rest inductionHypothesis =>
    have exactly := kept state action along.1 initial holds
    have next := fun guarded => preserved state action along.1 guarded initial
    constructor
    · intro always
      have after : property (step state action) := (Always.along step always).1
      have guarded := exactly.mp after
      exact ⟨guarded, (inductionHypothesis along.2 (next guarded) after).mp always.2⟩
    · rintro ⟨guarded, later⟩
      exact ⟨holds, (inductionHypothesis along.2 (next guarded) (exactly.mpr guarded)).mpr later⟩

/-- Guards that, as assumed of the actions, agree in the states that the guarded runs reach are
met along the same runs. -/
theorem along_congr_of {assumed first second : σ → α → Prop} (invariant : σ → Prop)
    (preserved : ∀ state action, assumed state action → first state action → invariant state →
      invariant (step state action))
    (same : ∀ state action, assumed state action → invariant state →
      (first state action ↔ second state action))
    {state : σ} {actions : List α} (along : Along step assumed state actions)
    (initial : invariant state) :
    Along step first state actions ↔ Along step second state actions := by
  induction actions generalizing state with
  | nil => exact Iff.rfl
  | cons action rest inductionHypothesis =>
    have here := same state action along.1 initial
    have next := fun met => preserved state action along.1 met initial
    constructor
    · rintro ⟨met, later⟩
      exact ⟨here.mp met, (inductionHypothesis along.2 (next met)).mp later⟩
    · rintro ⟨met, later⟩
      have alsoMet := here.mpr met
      exact ⟨alsoMet, (inductionHypothesis along.2 (next alsoMet)).mpr later⟩

/-- A property that a step keeps exactly under the guard holds in all states of exactly the
guarded runs. -/
theorem always_iff_along {guard : σ → α → Prop} {property : σ → Prop} (invariant : σ → Prop)
    (preserved : ∀ state action, invariant state → invariant (step state action))
    (kept : ∀ state action, invariant state → property state →
      (property (step state action) ↔ guard state action))
    {state : σ} (actions : List α) (initial : invariant state) (holds : property state) :
    Always step property state actions ↔ Along step guard state actions :=
  always_iff_along_of step invariant (fun state action _ _ => preserved state action)
    (fun state action _ => kept state action)
    (Along.of_forall step state (fun _ _ => trivial)) initial holds

/-- For a preorder it is enough to relate the states before and after each step. -/
theorem onward_iff_along {relation : σ → σ → Prop} (reflexive : ∀ state, relation state state)
    (transitive : ∀ first second third, relation first second → relation second third →
      relation first third) (state : σ) (actions : List α) :
    Onward step relation state actions ↔
      Along step (fun state action => relation state (step state action)) state actions := by
  have related : ∀ (second third : List α) (state : σ),
      Along step (fun state action => relation state (step state action)) state (second ++ third) →
      relation state (run step state second) := by
    intro second third
    induction second with
    | nil => exact fun state _ => reflexive state
    | cons action rest inductionHypothesis =>
      intro state along
      exact transitive _ _ _ along.1 (inductionHypothesis (step state action) along.2)
  induction actions generalizing state with
  | nil =>
    refine iff_of_true ?_ trivial
    intro first second third split
    obtain ⟨rfl, rest⟩ := List.append_eq_nil_iff.mp split.symm
    obtain ⟨rfl, rfl⟩ := List.append_eq_nil_iff.mp rest
    exact reflexive state
  | cons action rest inductionHypothesis =>
    constructor
    · intro onward
      refine ⟨onward [] [action] rest rfl, (inductionHypothesis (step state action)).mp ?_⟩
      rintro first second third rfl
      exact onward (action :: first) second third rfl
    · intro along first second third split
      cases first with
      | nil =>
        rw [List.nil_append] at split
        exact related second third state (split ▸ along)
      | cons head tail =>
        obtain ⟨rfl, rfl⟩ := List.cons.inj split
        exact (inductionHypothesis (step state action)).mpr along.2 tail second third rfl

/-- What every step preserves, every run preserves. -/
theorem run_invariant (invariant : σ → Prop)
    (preserved : ∀ state action, invariant state → invariant (step state action))
    (state : σ) (actions : List α) (initial : invariant state) :
    invariant (run step state actions) := by
  induction actions generalizing state with
  | nil => exact initial
  | cons action rest inductionHypothesis =>
    exact inductionHypothesis (step state action) (preserved state action initial)

/-- Steps that keep a relation between two systems keep it along runs with the same actions. -/
theorem run_simulates {τ : Type*} (other : τ → α → τ) (related : σ → τ → Prop)
    (kept : ∀ state image action, related state image →
      related (step state action) (other image action))
    (state : σ) (image : τ) (actions : List α) (initial : related state image) :
    related (run step state actions) (run other image actions) := by
  induction actions generalizing state image with
  | nil => exact initial
  | cons action rest inductionHypothesis =>
    exact inductionHypothesis (step state action) (other image action)
      (kept state image action initial)

end AvalancheParallel.Runs
