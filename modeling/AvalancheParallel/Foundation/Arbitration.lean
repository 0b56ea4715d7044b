import Mathlib.Data.Set.Lattice

/-!
# Exclusive grants of shared resources

Users register for the resources they need, and a round of grants serves users
that are alone on all their resources. Registrations may arrive at any time,
before or after a grant. A user that holds a grant while registered on all of
its resources keeps later users off them, so grants never overlap.
-/

namespace AvalancheParallel.Arbitration

universe u v
variable {User : Type u} {Resource : Type v}

/-- Who is registered on each resource, and who has been granted its needs. -/
structure Allocation (User : Type u) (Resource : Type v) where
  registered : Resource → Set User
  granted : Set User

variable (needs : User → Set Resource)

/-- The user is registered on every resource it needs. -/
def Enrolled (allocation : Allocation User Resource) (user : User) : Prop :=
  ∀ resource ∈ needs user, user ∈ allocation.registered resource

/-- No other user is registered on a resource the user needs. -/
def Alone (allocation : Allocation User Resource) (user : User) : Prop :=
  ∀ resource ∈ needs user, ∀ other ∈ allocation.registered resource, other = user

/-- Registrations arrive, or a round of grants serves enrolled users that are alone. -/
inductive Step : Allocation User Resource → Allocation User Resource → Prop where
  | register (before after : Allocation User Resource)
      (kept : ∀ resource, before.registered resource ⊆ after.registered resource)
      (same : after.granted = before.granted) : Step before after
  | grant (before after : Allocation User Resource) (served : Set User)
      (same : after.registered = before.registered)
      (extended : after.granted = before.granted ∪ served)
      (enrolled : ∀ user ∈ served, Enrolled needs before user)
      (alone : ∀ user ∈ served, Alone needs before user) : Step before after

/-- Granted users are enrolled, and no two of them need one resource. -/
structure Exclusive (allocation : Allocation User Resource) : Prop where
  enrolled : ∀ user ∈ allocation.granted, Enrolled needs allocation user
  disjoint : ∀ first ∈ allocation.granted, ∀ second ∈ allocation.granted,
    ∀ resource, resource ∈ needs first → resource ∈ needs second → first = second

/-- Every step keeps grants exclusive. In a round of grants a served user meets an
earlier or equally served user only on a resource where both are registered. -/
theorem Step.exclusive {before after : Allocation User Resource} (step : Step needs before after)
    (exclusive : Exclusive needs before) : Exclusive needs after := by
  cases step with
  | register kept same =>
    constructor
    · intro user member resource needed
      rw [same] at member
      exact kept resource (exclusive.enrolled user member resource needed)
    · rw [same]
      exact exclusive.disjoint
  | grant served same extended enrolled alone =>
    have allEnrolled : ∀ user ∈ after.granted, Enrolled needs before user := by
      intro user member
      rw [extended] at member
      exact member.elim (exclusive.enrolled user) (enrolled user)
    constructor
    · intro user member resource needed
      rw [same]
      exact allEnrolled user member resource needed
    · intro first firstGranted second secondGranted resource firstNeeds secondNeeds
      have firstHere := allEnrolled first firstGranted resource firstNeeds
      have secondHere := allEnrolled second secondGranted resource secondNeeds
      rw [extended] at firstGranted secondGranted
      rcases firstGranted with firstOld | firstServed
      · rcases secondGranted with secondOld | secondServed
        · exact exclusive.disjoint first firstOld second secondOld resource firstNeeds secondNeeds
        · exact alone second secondServed resource secondNeeds first firstHere
      · exact (alone first firstServed resource firstNeeds second secondHere).symm

end AvalancheParallel.Arbitration
