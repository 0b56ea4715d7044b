import AvalancheParallel.Foundation.RangeLoop
import AvalancheParallel.Foundation.Runs
import Mathlib.Algebra.Order.BigOperators.Group.Finset

/-!
# The bag of votes of the consensus fork

`Bag` of `default/utils/bag/bag.go` counts how often each element was added and keeps the
set of elements whose count has reached a threshold. That set has the type `set.Set`, an
interface, and no function of the package makes one: in the zero bag, and in the bags
that `Filter`, `Split` and `Clone` build up from it, it is nil. A method call on it panics.

The operations below are those of the source, with the interface as an optional set and a
panic as no result. From the zero bag, every call that would record something panics, and
the bags made from it stay as they are.
-/

namespace AvalancheParallel.Utils

open AvalancheParallel.RangeLoop AvalancheParallel.Runs

variable {T : Type} [DecidableEq T]

/-- `Bag`. An `int` has 64 bits. -/
structure Bag (T : Type) where
  counts : GoMap T Int64
  size : Int64
  threshold : Int64
  metThreshold : Option (Finset T)

namespace Bag

/-- The zero value of the type. -/
def zero : Bag T := ⟨∅, 0, 0, none⟩

/-- `Count`. -/
def count (b : Bag T) (elt : T) : Int64 := (b.counts.lookup elt).getD 0

/-- The elements in the set that `Threshold` returns. The nil interface has none. -/
def thresholdElements (b : Bag T) : Finset T := b.metThreshold.getD ∅

/-- `SetThreshold`. -/
def setThreshold (order : IterationOrder T) (threshold : Int64) (b : Bag T) : Option (Bag T) :=
  if b.threshold = threshold then some b
  else
    match b.metThreshold with
    -- the call of `Clear` on the nil interface
    | none => none
    | some _ =>
      let met := (order.arrange b.counts.keys).foldl
        (fun met vote => if b.count vote ≥ threshold then insert vote met else met) ∅
      some { b with threshold := threshold, metThreshold := some met }

/-- `AddCount`. -/
def addCount (elt : T) (count : Int64) (b : Bag T) : Option (Bag T) :=
  if count ≤ 0 then some b
  else
    let totalCount := b.count elt + count
    let added := { b with counts := b.counts.insert elt totalCount, size := b.size + count }
    if totalCount ≥ b.threshold then
      match b.metThreshold with
      -- the call of `Add` on the nil interface
      | none => none
      | some met => some { added with metThreshold := some (insert elt met) }
    else some added

/-- `Add`. -/
def add (elts : List T) (b : Bag T) : Option (Bag T) :=
  elts.foldlM (fun b elt => b.addCount elt 1) b

/-- `Remove`. -/
def remove (elt : T) (b : Bag T) : Bag T :=
  { b with counts := b.counts.erase elt, size := b.size - b.count elt }

/-- `Filter`. -/
def filter (order : IterationOrder T) (filterFunc : T → Bool) (b : Bag T) : Option (Bag T) :=
  (order.arrange b.counts.keys).foldlM (fun newBag vote =>
    if filterFunc vote then newBag.addCount vote (b.count vote) else some newBag) zero

/-- `Split`: the elements that fail the test, and those that pass it. -/
def split (order : IterationOrder T) (splitFunc : T → Bool) (b : Bag T) :
    Option (Bag T × Bag T) :=
  (order.arrange b.counts.keys).foldlM (fun splitVotes vote =>
    if splitFunc vote then
      (splitVotes.2.addCount vote (b.count vote)).map (fun passed => (splitVotes.1, passed))
    else
      (splitVotes.1.addCount vote (b.count vote)).map (fun failed => (failed, splitVotes.2)))
    (zero, zero)

/-- `Clone`. -/
def clone (order : IterationOrder T) (b : Bag T) : Option (Bag T) :=
  (order.arrange b.counts.keys).foldlM (fun clone id => clone.addCount id (b.count id)) zero

/-- The size, the counts and the threshold set agree. -/
structure Sound (b : Bag T) : Prop where
  size : b.size.toInt = ∑ elt ∈ b.counts.keys, (b.count elt).toInt
  positive : ∀ elt count, b.counts.lookup elt = some count → 0 < count
  threshold : ∀ elt, elt ∈ b.thresholdElements ↔
    ∃ count, b.counts.lookup elt = some count ∧ b.threshold ≤ count

/-- The zero bag is sound. -/
theorem zero_sound : (zero : Bag T).Sound where
  size := rfl
  positive elt count found := nomatch found
  threshold elt := by simp [thresholdElements, zero]

end Bag

/-- The operations of a bag, with the iteration order where the source ranges over the counts. -/
inductive BagOperation (T : Type) where
  | setThreshold (order : IterationOrder T) (threshold : Int64)
  | add (elts : List T)
  | addCount (elt : T) (count : Int64)
  | remove (elt : T)
  | filter (order : IterationOrder T) (filterFunc : T → Bool)
  | split (order : IterationOrder T) (splitFunc : T → Bool)
  | clone (order : IterationOrder T)

namespace BagOperation

/-- The bag after the operation, and the bags that the operation returns. -/
def perform (b : Bag T) : BagOperation T → Option (Bag T × List (Bag T))
  | setThreshold order threshold => (b.setThreshold order threshold).map (·, [])
  | add elts => (b.add elts).map (·, [])
  | addCount elt count => (b.addCount elt count).map (·, [])
  | remove elt => some (b.remove elt, [])
  | filter order filterFunc => (b.filter order filterFunc).map (fun newBag => (b, [newBag]))
  | split order splitFunc => (b.split order splitFunc).map (fun bags => (b, [bags.1, bags.2]))
  | clone order => (b.clone order).map (fun newBag => (b, [newBag]))

/-- The operation records nothing: it sets the threshold 0, adds nothing, or takes no count. -/
def Idle : BagOperation T → Prop
  | setThreshold _ threshold => threshold = 0
  | add elts => elts = []
  | addCount _ count => count ≤ 0
  | remove _ | filter _ _ | split _ _ | clone _ => True

end BagOperation

/-- An operation on the bag at a position among those made so far. -/
structure BagCall (T : Type) where
  receiver : ℕ
  operation : BagOperation T

/-- The bags made so far, or nothing after a panic. -/
abbrev BagSession (T : Type) := Option (List (Bag T))

/-- A call changes its receiver and adds the bags that it returns. -/
def BagSession.step (session : BagSession T) (call : BagCall T) : BagSession T :=
  match session with
  | none => none
  | some bags =>
    match bags[call.receiver]? with
    | none => some bags
    | some b => (call.operation.perform b).map (fun (after, made) =>
        bags.set call.receiver after ++ made)

/-- Reachable sessions: every bag is still the zero bag. -/
def BagSession.Unused (session : BagSession T) : Prop :=
  ∀ bags, session = some bags → ∀ b ∈ bags, b = Bag.zero

/-- No call panicked, and every bag is sound. -/
def BagSession.Sound (session : BagSession T) : Prop :=
  ∃ bags, session = some bags ∧ ∀ b ∈ bags, b.Sound

namespace BagOperation

/-- On the zero bag, an operation that records nothing leaves it, and returns zero bags. -/
theorem perform_zero_of_idle {operation : BagOperation T} (idle : operation.Idle) :
    ∃ made, operation.perform Bag.zero = some (Bag.zero, made) ∧ ∀ b ∈ made, b = Bag.zero := by
  have none (order : IterationOrder T) : order.arrange (Bag.zero : Bag T).counts.keys = [] := by
    refine List.eq_nil_iff_forall_not_mem.mpr ?_
    intro elt
    rw [IterationOrder.mem_arrange]
    exact Finset.notMem_empty elt
  cases operation with
  | setThreshold order threshold =>
    obtain rfl : threshold = 0 := idle
    exact ⟨[], by simp [perform, Bag.setThreshold, Bag.zero], by simp⟩
  | add elts =>
    obtain rfl : elts = [] := idle
    exact ⟨[], rfl, by simp⟩
  | addCount elt count =>
    have nothing : count ≤ 0 := idle
    exact ⟨[], by simp [perform, Bag.addCount, nothing], by simp⟩
  | remove elt =>
    have absent : (∅ : GoMap T Int64).erase elt = ∅ := by
      refine Finmap.ext_lookup ?_
      intro other
      by_cases same : other = elt
      · rw [same, Finmap.lookup_erase, Finmap.lookup_empty]
      · rw [Finmap.lookup_erase_ne same]
    refine ⟨[], ?_, by simp⟩
    simp [perform, Bag.remove, Bag.zero, Bag.count, absent]
  | filter order filterFunc =>
    refine ⟨[Bag.zero], ?_, by simp⟩
    simp [perform, Bag.filter, none order]
  | split order splitFunc =>
    refine ⟨[Bag.zero, Bag.zero], ?_, by simp⟩
    simp [perform, Bag.split, none order]
  | clone order =>
    refine ⟨[Bag.zero], ?_, by simp⟩
    simp [perform, Bag.clone, none order]

/-- On the zero bag, adding a positive count calls a method of the nil interface. -/
theorem addCount_zero (elt : T) {count : Int64} (adds : ¬ count ≤ 0) :
    (Bag.zero : Bag T).addCount elt count = none := by
  have reached : (Bag.zero : Bag T).count elt + count ≥ (Bag.zero : Bag T).threshold := by
    change 0 ≤ 0 + count
    rw [Int64.zero_add]
    exact Int64.le_of_lt (Int64.not_le.mp adds)
  simp only [Bag.addCount, adds, if_false, reached, if_true]
  rfl

/-- On the zero bag, every other operation panics. -/
theorem perform_zero_of_not_idle {operation : BagOperation T} (records : ¬ operation.Idle) :
    operation.perform Bag.zero = none := by
  cases operation with
  | setThreshold order threshold =>
    have changes : ¬ (0 : Int64) = threshold := fun same => records same.symm
    simp [perform, Bag.setThreshold, Bag.zero, changes]
  | add elts =>
    cases elts with
    | nil => exact absurd rfl records
    | cons elt rest =>
      have panics := addCount_zero elt (show ¬ (1 : Int64) ≤ 0 by decide)
      simp [perform, Bag.add, List.foldlM_cons, panics]
  | addCount elt count =>
    simp [perform, addCount_zero elt records]
  | remove _ | filter _ _ | split _ _ | clone _ => exact absurd trivial records

end BagOperation

namespace BagSession

/-- The call has no receiver among the bags, or records nothing. -/
def Idles (session : BagSession T) (call : BagCall T) : Prop :=
  ∀ bags, session = some bags → call.receiver < bags.length → call.operation.Idle

/-- A call that records nothing on zero bags leaves zero bags. -/
theorem step_of_idles {bags : List (Bag T)} {call : BagCall T} (zeros : ∀ b ∈ bags, b = Bag.zero)
    (idles : Idles (some bags) call) :
    ∃ after, step (some bags) call = some after ∧ ∀ b ∈ after, b = Bag.zero := by
  cases found : bags[call.receiver]? with
  | none => exact ⟨bags, by simp only [step, found], zeros⟩
  | some b =>
    obtain rfl := zeros b (List.mem_of_getElem? found)
    obtain ⟨within, _⟩ := List.getElem?_eq_some_iff.mp found
    obtain ⟨made, performed, new⟩ := BagOperation.perform_zero_of_idle (idles bags rfl within)
    refine ⟨bags.set call.receiver Bag.zero ++ made, ?_, ?_⟩
    · simp only [step, found, performed, Option.map_some]
    · intro other member
      rcases List.mem_append.mp member with kept | returned
      · rcases List.mem_or_eq_of_mem_set kept with earlier | rfl
        · exact zeros other earlier
        · rfl
      · exact new other returned

/-- Every other call on zero bags panics. -/
theorem step_of_not_idles {bags : List (Bag T)} {call : BagCall T}
    (zeros : ∀ b ∈ bags, b = Bag.zero) (records : ¬ Idles (some bags) call) :
    step (some bags) call = none := by
  unfold Idles at records
  push Not at records
  obtain ⟨others, same, within, records⟩ := records
  obtain rfl := Option.some.inj same
  have found : bags[call.receiver]? = some Bag.zero := by
    rw [List.getElem?_eq_getElem within, zeros _ (List.getElem_mem within)]
  simp only [step, found, BagOperation.perform_zero_of_not_idle records, Option.map_none]

/-- A call on zero bags leaves zero bags, or panics. -/
theorem step_unused (session : BagSession T) (call : BagCall T) (unused : session.Unused) :
    (step session call).Unused := by
  cases session with
  | none => exact unused
  | some bags =>
    by_cases idles : Idles (some bags) call
    · obtain ⟨after, performed, zeros⟩ := step_of_idles (unused bags rfl) idles
      rw [performed]
      intro others same
      obtain rfl := Option.some.inj same
      exact zeros
    · rw [step_of_not_idles (unused bags rfl) idles]
      intro others impossible
      cases impossible

/-- On zero bags, a call keeps the session sound exactly when it records nothing. -/
theorem step_sound_iff (session : BagSession T) (call : BagCall T) (unused : session.Unused)
    (sound : session.Sound) : (step session call).Sound ↔ Idles session call := by
  obtain ⟨bags, rfl, _⟩ := sound
  constructor
  · rintro ⟨after, performed, _⟩
    by_contra records
    rw [step_of_not_idles (unused bags rfl) records] at performed
    cases performed
  · intro idles
    obtain ⟨after, performed, zeros⟩ := step_of_idles (unused bags rfl) idles
    refine ⟨after, performed, ?_⟩
    intro b member
    rw [zeros b member]
    exact Bag.zero_sound

end BagSession

/-- The calls from the zero bag on panic nowhere and leave all bags sound exactly when none
of the calls on a bag records anything. -/
theorem bag_sound_iff_idle (calls : List (BagCall T)) :
    Always BagSession.step BagSession.Sound (some [Bag.zero]) calls ↔
      Along BagSession.step BagSession.Idles (some [Bag.zero]) calls := by
  refine always_iff_along BagSession.step BagSession.Unused BagSession.step_unused
    BagSession.step_sound_iff calls ?_ ?_
  · rintro bags same b member
    obtain rfl := Option.some.inj same
    exact List.mem_singleton.mp member
  · refine ⟨[Bag.zero], rfl, ?_⟩
    intro b member
    rw [List.mem_singleton.mp member]
    exact Bag.zero_sound

/-- Adding one element to the zero bag panics. -/
theorem first_add_panics :
    run BagSession.step (some [Bag.zero]) [⟨0, .add [7]⟩] = (none : BagSession ℕ) ∧
      ¬ ∀ calls : List (BagCall ℕ),
        Always BagSession.step BagSession.Sound (some [Bag.zero]) calls := by
  have panics : BagSession.step (some [Bag.zero]) ⟨0, .add [7]⟩ = (none : BagSession ℕ) := by
    decide
  refine ⟨panics, ?_⟩
  intro sound
  obtain ⟨bags, kept, _⟩ := (sound [⟨0, .add [7]⟩]).2
  rw [panics] at kept
  cases kept

end AvalancheParallel.Utils
