import AvalancheParallel.Sampler.HeapSampling

/-!
# Updating and removing elements of the heap of weights

`Update` and `Remove` find an element by the index of its weight and refuse the elements that
have been removed, which a negative draw index tells. In a new heap all draw indices are
negative. `Update` therefore refuses every index, and `Remove` refuses to remove any.
-/

namespace AvalancheParallel.Sampler

variable {P : Type} [LinearOrder P] [OrderTop P] {f : Floats P}

/-- A call of `Update` or `Remove`. -/
inductive HeapCall where
  | update (index : ℤ) (weight : UInt64)
  | remove (index : ℤ)
deriving DecidableEq

/-- A heap with the indices for which `Remove` has been called and those for which it has returned
no error. -/
structure HeapSession (P : Type) where
  heap : WeightedHeap P
  asked : List ℤ
  removed : List ℤ

/-- One call; a panic leaves the heap as it is. -/
def HeapSession.call (session : HeapSession P) : HeapCall → HeapSession P
  | .update index weight =>
    match session.heap.updateIndex index weight with
    | some (after, _) => { session with heap := after }
    | none => session
  | .remove index =>
    match session.heap.remove index with
    | some (after, none) => ⟨after, index :: session.asked, index :: session.removed⟩
    | some (after, some _) => ⟨after, index :: session.asked, session.removed⟩
    | none => { session with asked := index :: session.asked }

namespace WeightedHeap

/-- The weight stored for an index. -/
def storedWeight (s : WeightedHeap P) (index : ℕ) : Option UInt64 :=
  (s.heap.find? (fun element => element.initialIndex = index)).map WeightedElement.weight

/-- An `Update` in range returns the weight stored for the index and replaces this weight only,
and it fails with `errElementRemoved` exactly if the index has been removed. -/
def AddressesRight (n : ℕ) (removed : ℤ → Prop) (s : WeightedHeap P) : HeapCall → Prop
  | .remove _ => True
  | .update index weight => 0 ≤ index → index < n →
    (removed index → ∃ after old, s.updateIndex index weight =
      some (after, old, some .elementRemoved)) ∧
    (¬ removed index → ∃ after old, s.updateIndex index weight = some (after, old, none) ∧
      s.storedWeight index.toNat = some old ∧
      ∀ other : ℕ, after.storedWeight other =
        if (other : ℤ) = index then some weight else s.storedWeight other)

variable {s : WeightedHeap P}

/-- Every `Update` in range of a dormant heap fails. -/
theorem Dormant.updateIndex {indices : List ℕ} (dormant : s.Dormant indices)
    (counted : s.numWeights = s.heap.length) {index : ℤ} (lower : 0 ≤ index)
    (upper : index < s.numWeights) (weight : UInt64) :
    ∃ old, s.updateIndex index weight = some (s, old, some .elementRemoved) := by
  have short : index.toNat < s.heap.length := by omega
  have removed : s.heap[index.toNat].drawIndex < 0 := by
    rw [dormant.marked _ (List.getElem_mem short)]
    decide
  refine ⟨s.heap[index.toNat].weight, ?_⟩
  rw [WeightedHeap.updateIndex, if_neg (by omega), List.getElem?_eq_getElem short]
  simp only [removed, if_true]

/-- So the call addresses the right element only if the index has been removed. -/
theorem Dormant.addressesRight_iff {indices : List ℕ} (dormant : s.Dormant indices)
    (counted : s.numWeights = s.heap.length) (removed : ℤ → Prop) (call : HeapCall) :
    AddressesRight s.numWeights removed s call ↔
      ∀ index weight, call = .update index weight → 0 ≤ index → index < s.numWeights →
        removed index := by
  cases call with
  | remove index => simp [AddressesRight]
  | update index weight =>
    constructor
    · intro addresses position value same lower upper
      obtain ⟨rfl, rfl⟩ := HeapCall.update.inj same
      by_contra present
      obtain ⟨old, refused⟩ := dormant.updateIndex counted lower upper weight
      obtain ⟨after, other, accepted, _⟩ := (addresses lower upper).2 present
      rw [refused] at accepted
      cases accepted
    · intro condition lower upper
      have gone := condition index weight rfl lower upper
      obtain ⟨old, refused⟩ := dormant.updateIndex counted lower upper weight
      exact ⟨fun _ => ⟨s, old, refused⟩, fun present => absurd gone present⟩

end WeightedHeap

namespace HeapSession

variable {session : HeapSession P}

/-- The heap of a new session is dormant and nothing is ever removed from it. -/
structure Unmoved (s : WeightedHeap P) (session : HeapSession P) : Prop where
  heap : session.heap = s
  removed : session.removed = []

/-- A call changes nothing but the list of the indices that were asked for. -/
theorem call_unmoved {s : WeightedHeap P} {indices : List ℕ} (dormant : s.Dormant indices)
    (counted : s.numWeights = s.heap.length) (unmoved : session.Unmoved s) (call : HeapCall) :
    (session.call call).Unmoved s := by
  obtain ⟨heap, asked, removed⟩ := session
  obtain ⟨rfl, rfl⟩ := unmoved
  cases call with
  | update index weight =>
    by_cases inside : 0 ≤ index ∧ index < heap.numWeights
    · obtain ⟨old, refused⟩ := dormant.updateIndex counted inside.1 inside.2 weight
      simp only [HeapSession.call, refused]
      exact ⟨rfl, rfl⟩
    · have refused : heap.updateIndex index weight = some (heap, 0, some .indexOutOfRange) := by
        rw [WeightedHeap.updateIndex, if_pos (by omega)]
      simp only [HeapSession.call, refused]
      exact ⟨rfl, rfl⟩
  | remove index =>
    obtain ⟨error, refused⟩ := dormant.remove counted.le index
    simp only [HeapSession.call, refused]
    exact ⟨rfl, rfl⟩

omit [OrderTop P] in
/-- The indices for which `Remove` has been called. -/
theorem mem_asked_run (calls : List HeapCall) (index : ℤ) :
    index ∈ (Runs.run HeapSession.call session calls).asked ↔
      HeapCall.remove index ∈ calls ∨ index ∈ session.asked := by
  induction calls generalizing session with
  | nil => simp
  | cons call rest inductionHypothesis =>
    rw [Runs.run_cons, inductionHypothesis]
    have asked : index ∈ (session.call call).asked ↔
        call = .remove index ∨ index ∈ session.asked := by
      cases call with
      | update position weight =>
        rw [HeapSession.call]
        split <;> simp
      | remove position =>
        rw [HeapSession.call]
        split <;> simp [eq_comm]
    rw [asked, List.mem_cons]
    tauto

/-- Whichever removals are counted, the calls address the right elements when every `Update` in
range is for an index that counts as removed. -/
theorem addressesRight_along_iff {s : WeightedHeap P} {indices : List ℕ}
    (dormant : s.Dormant indices) (counted : s.numWeights = s.heap.length)
    (removed : HeapSession P → ℤ → Prop) (calls : List HeapCall) :
    Runs.Along HeapSession.call (fun session call =>
        WeightedHeap.AddressesRight s.numWeights (removed session) session.heap call)
        ⟨s, [], []⟩ calls ↔
      ∀ front (index : ℤ) weight rest, calls = front ++ .update index weight :: rest → 0 ≤ index →
        index < s.numWeights → removed (Runs.run HeapSession.call ⟨s, [], []⟩ front) index := by
  have same : Runs.Along HeapSession.call (fun session call =>
      WeightedHeap.AddressesRight s.numWeights (removed session) session.heap call)
      ⟨s, [], []⟩ calls ↔
    Runs.Along HeapSession.call (fun session call => ∀ index weight, call = .update index weight →
      0 ≤ index → index < s.numWeights → removed session index) ⟨s, [], []⟩ calls := by
    refine Runs.along_congr_of HeapSession.call (Unmoved s) ?_ ?_
      (Runs.Along.of_forall HeapSession.call _ (fun _ _ => trivial)) ⟨rfl, rfl⟩
    · intro session call _ _ unmoved
      exact call_unmoved dormant counted unmoved call
    · rintro session call _ ⟨rfl, _⟩
      exact dormant.addressesRight_iff counted (removed session) call
  rw [same, Runs.along_iff_forall]
  constructor
  · intro met front index weight rest split
    exact met front _ rest split index weight rfl
  · rintro met front call rest split index weight rfl
    exact met front index weight rest split

end HeapSession

/-- After `Initialize`, every `Update` of a sequence of calls addresses the right element exactly
when each of them that is in range comes after a `Remove` of the same index, if every `Remove`
counts. If only the successful ones count, no `Update` may be in range. -/
theorem updates_address_right_iff (before s : WeightedHeap P) (weights : List UInt64)
    (accepted : before.initializeWith f weights = some (s, none)) (calls : List HeapCall) :
    (Runs.Along HeapSession.call (fun session call => WeightedHeap.AddressesRight weights.length
        (fun index => index ∈ session.asked) session.heap call) ⟨s, [], []⟩ calls ↔
      ∀ front (index : ℤ) weight rest, calls = front ++ .update index weight :: rest → 0 ≤ index →
        index < weights.length → .remove index ∈ front) ∧
    (Runs.Along HeapSession.call (fun session call => WeightedHeap.AddressesRight weights.length
        (fun index => index ∈ session.removed) session.heap call) ⟨s, [], []⟩ calls ↔
      ∀ (index : ℤ) weight, .update index weight ∈ calls → 0 ≤ index →
        ¬ index < weights.length) := by
  obtain ⟨dormant, number, _⟩ := WeightedHeap.initializeWith_dormant accepted
  have counted : s.numWeights = s.heap.length := by
    rw [number, dormant.length, List.length_range]
  rw [← number]
  constructor
  · rw [HeapSession.addressesRight_along_iff dormant counted
      (fun session index => index ∈ session.asked)]
    simp only [HeapSession.mem_asked_run, List.not_mem_nil, or_false]
  · rw [HeapSession.addressesRight_along_iff dormant counted
      (fun session index => index ∈ session.removed)]
    have nothing : ∀ front, (Runs.run HeapSession.call ⟨s, [], []⟩ front).removed = [] := by
      intro front
      have unmoved := Runs.run_invariant HeapSession.call (HeapSession.Unmoved s)
        (fun _ call earlier => HeapSession.call_unmoved dormant counted earlier call)
        ⟨s, [], []⟩ front ⟨rfl, rfl⟩
      exact unmoved.removed
    simp only [nothing, List.not_mem_nil]
    constructor
    · intro never index weight member lower upper
      obtain ⟨front, rest, split⟩ := List.append_of_mem member
      exact never front index weight rest split lower upper
    · rintro never front index weight rest rfl lower upper
      exact never index weight (by simp) lower upper

/-- An `Update` of an index that `Remove` was called for. -/
theorem update_after_remove_addresses :
    ∃ s, WeightedHeap.initializeWith WeightedHeap.sampleFloats [1, 1, 5] ⟨[], 0⟩ =
        some (s, none) ∧
      Runs.Along HeapSession.call (fun session call => WeightedHeap.AddressesRight 3
        (fun index => index ∈ session.asked) session.heap call) ⟨s, [], []⟩
        [.remove 1, .update 1 7, .update 3 7] := by
  obtain ⟨s, accepted⟩ := WeightedHeap.exists_sampleHeap
  refine ⟨s, accepted, (updates_address_right_iff ⟨[], 0⟩ s [1, 1, 5] accepted _).1.mpr ?_⟩
  intro front index weight rest split lower upper
  have short : index < 3 := upper
  match front, split with
  | [], split => simp at split
  | [first], split =>
    obtain ⟨rfl, others⟩ := List.cons.inj split
    obtain ⟨call, _⟩ := List.cons.inj others
    obtain ⟨rfl, _⟩ := HeapCall.update.inj call
    exact List.mem_singleton_self _
  | [first, second], split =>
    obtain ⟨rfl, others⟩ := List.cons.inj split
    obtain ⟨rfl, last⟩ := List.cons.inj others
    obtain ⟨call, _⟩ := List.cons.inj last
    obtain ⟨rfl, _⟩ := HeapCall.update.inj call
    omega
  | first :: second :: third :: more, split => simp at split

/-- The first `Update` of a new heap already fails, although nothing has been removed. -/
theorem first_update_refused :
    ∃ s, WeightedHeap.initializeWith WeightedHeap.sampleFloats [1, 1, 5] ⟨[], 0⟩ =
        some (s, none) ∧
      (∃ old, s.updateIndex 0 7 = some (s, old, some .elementRemoved)) ∧
      ¬ Runs.Along HeapSession.call (fun session call => WeightedHeap.AddressesRight 3
          (fun index => index ∈ session.asked) session.heap call) ⟨s, [], []⟩ [.update 0 7] ∧
      ¬ Runs.Along HeapSession.call (fun session call => WeightedHeap.AddressesRight 3
          (fun index => index ∈ session.removed) session.heap call) ⟨s, [], []⟩ [.update 0 7] := by
  obtain ⟨s, accepted⟩ := WeightedHeap.exists_sampleHeap
  obtain ⟨dormant, number, _⟩ := WeightedHeap.initializeWith_dormant accepted
  have counted : s.numWeights = s.heap.length := by
    rw [number, dormant.length, List.length_range]
  have size : s.numWeights = 3 := number
  obtain ⟨old, refused⟩ := dormant.updateIndex counted (le_refl 0) (by omega) 7
  refine ⟨s, accepted, ⟨old, refused⟩, ?_, ?_⟩
  · rintro ⟨addresses, _⟩
    obtain ⟨after, other, updated, _⟩ := (addresses (by decide) (by decide)).2 (by simp)
    rw [refused] at updated
    cases updated
  · rintro ⟨addresses, _⟩
    obtain ⟨after, other, updated, _⟩ := (addresses (by decide) (by decide)).2 (by simp)
    rw [refused] at updated
    cases updated

end AvalancheParallel.Sampler
