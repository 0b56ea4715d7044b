import AvalancheParallel.Foundation.Runs
import AvalancheParallel.Sampler.WeightedHeap
import Mathlib.Data.List.Range

/-!
# Sampling from the heap of weights

`Initialize` leaves every element with the draw index `-1`, which `reset` takes for the mark of
an element that has been removed. All elements of a new heap are therefore dormant: they have
the infinite priority, and none of them is ever exchanged with another one in the heap.

`Sample` moves the last element to the first position, forgets the one that was there and
returns the one that has come. It never returns the first element this way, and the last
draw from a heap returns the element of the draw before once more. What a call has
forgotten is gone for the next one.
-/

namespace AvalancheParallel.Sampler

open AvalancheParallel.BinaryHeap

variable {P : Type} [LinearOrder P] [OrderTop P] {f : Floats P}

namespace WeightedHeap

/-- Every element is marked as removed and has the infinite priority; the indices of the elements
are listed. -/
structure Dormant (s : WeightedHeap P) (indices : List ℕ) : Prop where
  marked : ∀ element ∈ s.heap, element.drawIndex = -1
  infinite : ∀ element ∈ s.heap, element.priority = ⊤
  listed : s.heap.map WeightedElement.initialIndex = indices

variable {s : WeightedHeap P} {indices : List ℕ}

/-- A dormant heap has an element for each index. -/
theorem Dormant.length (dormant : s.Dormant indices) : s.heap.length = indices.length := by
  rw [← dormant.listed, List.length_map]

omit [LinearOrder P] [OrderTop P] in
/-- What `Initialize` stores when no sum overflows. -/
theorem fill_accepted {i : ℕ} {cumSum : UInt64} {scaled : List UInt64}
    (accepted : (fill f i cumSum scaled).2 = none) :
    (fill f i cumSum scaled).1.map WeightedElement.initialIndex = List.range' i scaled.length ∧
      ∀ element ∈ (fill f i cumSum scaled).1, element.drawIndex = -1 := by
  induction scaled generalizing i cumSum with
  | nil => simp [fill]
  | cons weight rest inductionHypothesis =>
    rw [fill] at accepted ⊢
    dsimp only at accepted ⊢
    split at accepted
    · cases accepted
    · rename_i fits
      obtain ⟨listed, marked⟩ := inductionHypothesis accepted
      rw [if_neg fits]
      refine ⟨?_, ?_⟩
      · rw [List.map_cons, listed, List.length_cons, List.range'_succ]
      · intro element member
        rcases List.mem_cons.mp member with rfl | later
        · rfl
        · exact marked element later

/-- `reset` gives elements that are marked the infinite priority and leaves them where they
are. -/
theorem reset_marked (marked : ∀ element ∈ s.heap, element.drawIndex = -1) :
    ∃ after, reset f s = some after ∧ after.numWeights = s.heap.length ∧
      after.Dormant (s.heap.map WeightedElement.initialIndex) := by
  have raised : s.heap.mapIdx (resetElement f) =
      s.heap.map (fun element => { element with priority := ⊤ }) := by
    apply List.ext_getElem (by simp)
    intro position first second
    have inside : position < s.heap.length := by simpa using first
    have removed : s.heap[position].drawIndex < 0 := by
      rw [marked _ (List.getElem_mem inside)]
      decide
    simp [resetElement, removed]
  let heap := s.heap.map (fun element => { element with priority := (⊤ : P) })
  refine ⟨⟨heap, s.heap.length⟩, ?_, rfl, ?_, ?_, ?_⟩
  · rw [reset]
    by_cases empty : s.heap.length = 0
    · have nothing : s.heap = [] := List.length_eq_zero_iff.mp empty
      simp [heap, nothing]
    · have inside : (s.heap.length - 1) / 2 < heap.length := by
        rw [List.length_map]
        omega
      have infinite : ∀ element ∈ heap, element.priority = ⊤ := by
        intro element member
        obtain ⟨before, _, rfl⟩ := List.mem_map.mp member
        rfl
      have built : build WeightedElement.priority WeightedElement.place s.heap.length
          ((s.heap.length - 1) / 2) heap = some heap :=
        build_of_equal _ _ inside (by rw [List.length_map]) infinite
      simp only [empty, if_false, raised]
      rw [built]
  · intro element member
    obtain ⟨before, inside, rfl⟩ := List.mem_map.mp member
    exact marked before inside
  · intro element member
    obtain ⟨before, _, rfl⟩ := List.mem_map.mp member
    rfl
  · rw [List.map_map]
    rfl

/-- A heap that `Initialize` accepts is dormant, with its elements in order. -/
theorem initializeWith_dormant {weights : List UInt64} {before : WeightedHeap P}
    (accepted : before.initializeWith f weights = some (s, none)) :
    s.Dormant (List.range weights.length) ∧ s.numWeights = weights.length ∧ weights ≠ [] := by
  rw [initializeWith] at accepted
  split at accepted
  · cases accepted
  · rename_i counted
    have nonempty : weights ≠ [] := by
      rintro rfl
      exact counted rfl
    split at accepted
    · cases accepted
    · rename_i heap filled
      have stored : (fill f 0 0 (f.scaled weights)).2 = none := by rw [filled]
      obtain ⟨listed, marked⟩ := fill_accepted stored
      rw [filled] at listed marked
      obtain ⟨after, done, number, dormant⟩ :=
        reset_marked (f := f) (s := ⟨heap, weights.length⟩) marked
      rw [done] at accepted
      obtain ⟨rfl, _⟩ := Prod.mk.inj (Option.some.inj accepted)
      have positions : heap.map WeightedElement.initialIndex = List.range weights.length := by
        rw [listed, f.length_scaled, List.range_eq_range']
      have count : heap.length = weights.length := by
        rw [← List.length_map WeightedElement.initialIndex, positions, List.length_range]
      exact ⟨positions ▸ dormant, number.trans count, nonempty⟩

/-- Nothing can be removed from a dormant heap. -/
theorem Dormant.remove (dormant : s.Dormant indices) (within : s.numWeights ≤ s.heap.length)
    (index : ℤ) : ∃ error, s.remove index = some (s, some error) := by
  rw [WeightedHeap.remove]
  split
  · exact ⟨.indexOutOfRange, rfl⟩
  · rename_i inside
    have short : index.toNat < s.heap.length := by omega
    have removed : s.heap[index.toNat].drawIndex < 0 := by
      rw [dormant.marked _ (List.getElem_mem short)]
      decide
    rw [List.getElem?_eq_getElem short]
    simp only [removed, if_true]
    exact ⟨.elementRemoved, rfl⟩

/-- `update` puts the last element of a dormant heap in the place of the first. -/
theorem Dormant.update {first last : ℕ} {middle : List ℕ}
    (dormant : s.Dormant (first :: (middle ++ [last])))
    (counted : s.numWeights = s.heap.length) :
    ∃ after, s.update = some after ∧ after.Dormant (last :: middle) ∧
      after.numWeights = middle.length + 1 ∧ after.heap.length = middle.length + 1 := by
  obtain ⟨heap, numWeights⟩ := s
  obtain ⟨marked, infinite, listed⟩ := dormant
  dsimp only at marked infinite listed counted
  obtain ⟨one, rest, rfl, rfl, others⟩ := List.map_eq_cons_iff.mp listed
  obtain ⟨between, ends, rfl, rfl, single⟩ := List.map_eq_append_iff.mp others
  obtain ⟨other, tail, rfl, rfl, nothing⟩ := List.map_eq_cons_iff.mp single
  obtain rfl := List.map_eq_nil_iff.mp nothing
  have infiniteLeft : ∀ element ∈ other :: between, element.priority = ⊤ := by
    intro element member
    apply infinite
    rcases List.mem_cons.mp member with rfl | inside
    · simp
    · simp [inside]
  have number : numWeights - 1 = between.length + 1 := by
    rw [counted]
    simp
  have still : percolateDown WeightedElement.priority WeightedElement.place (between.length + 1) 0
      (other :: between) = some (other :: between) :=
    percolateDown_of_equal _ _ (by simp) (by simp) infiniteLeft
  refine ⟨⟨other :: between, between.length + 1⟩, ?_, ⟨?_, infiniteLeft, rfl⟩, by simp, by simp⟩
  · simp [WeightedHeap.update, number, still]
  · intro element member
    apply marked
    rcases List.mem_cons.mp member with rfl | inside
    · simp
    · simp [inside]

/-- The only element of a heap stays. -/
theorem Dormant.update_single {index : ℕ} (dormant : s.Dormant [index])
    (counted : s.numWeights = 1) :
    ∃ after, s.update = some after ∧ after.Dormant [index] ∧ after.numWeights = 0 := by
  obtain ⟨heap, numWeights⟩ := s
  obtain ⟨marked, infinite, listed⟩ := dormant
  dsimp only at marked infinite listed counted
  obtain ⟨one, rest, rfl, rfl, others⟩ := List.map_eq_cons_iff.mp listed
  obtain rfl := List.map_eq_nil_iff.mp others
  have removed := marked one (by simp)
  refine ⟨⟨[{ one with drawIndex := -1 }], 0⟩, ?_, ⟨by simp, ?_, rfl⟩, rfl⟩
  · simp [WeightedHeap.update, counted]
  · intro element member
    obtain rfl := List.mem_singleton.mp member
    exact infinite one (by simp)

/-- What a draw does after `update`. -/
theorem Dormant.draw_of_update {updated : WeightedHeap P} {index : ℕ} {rest : List ℕ}
    (happened : s.update = some updated) (dormant : updated.Dormant (index :: rest))
    (within : updated.numWeights ≤ updated.heap.length) : s.draw = some (index, updated) := by
  obtain ⟨element, others, heap, own, _⟩ := List.map_eq_cons_iff.mp dormant.listed
  have first : updated.heap[0]? = some element := by rw [heap, List.getElem?_cons_zero]
  obtain ⟨error, refused⟩ := dormant.remove within element.initialIndex
  rw [draw, happened]
  dsimp only
  rw [first]
  dsimp only
  rw [refused, own]

/-- The heap between two calls: `count` elements after the first one, in order. -/
structure Ready (s : WeightedHeap P) (first count : ℕ) : Prop where
  dormant : s.Dormant (first :: List.range' 1 count)
  counted : s.numWeights = count + 1

/-- A heap that is ready has one element more than are left to draw. -/
theorem Ready.length {first count : ℕ} (ready : s.Ready first count) :
    s.heap.length = count + 1 := by
  rw [ready.dormant.length, List.length_cons, List.length_range']

/-- A draw takes the last element and leaves the heap ready for the next. -/
theorem Ready.draw {first count : ℕ} (ready : s.Ready first (count + 1)) :
    ∃ after, s.draw = some (count + 1, after) ∧ after.Ready (count + 1) count := by
  have dormant := ready.dormant
  rw [List.range'_1_concat, Nat.add_comm 1 count] at dormant
  obtain ⟨after, happened, next, number, size⟩ :=
    dormant.update (by rw [ready.counted, ready.length])
  rw [List.length_range'] at number size
  exact ⟨after, Dormant.draw_of_update happened next (by omega), next, number⟩

/-- As long as elements remain after the first one, they are drawn from the last on. -/
theorem Ready.draws {first count numSamples : ℕ} (ready : s.Ready first count)
    (enough : numSamples ≤ count) :
    ∃ next after, s.draws numSamples =
        some ((List.range' (count + 1 - numSamples) numSamples).reverse, after) ∧
      after.Ready next (count - numSamples) ∧
      (1 ≤ numSamples → next = count - numSamples + 1) := by
  induction numSamples generalizing s first count with
  | zero => exact ⟨first, s, rfl, by simpa using ready, fun some => absurd some (by omega)⟩
  | succ numSamples inductionHypothesis =>
    obtain ⟨fewer, rfl⟩ := Nat.exists_eq_succ_of_ne_zero (by omega : count ≠ 0)
    obtain ⟨after, drawn, readyAfter⟩ := ready.draw
    obtain ⟨next, last, others, readyLast, place⟩ :=
      inductionHypothesis readyAfter (by omega)
    refine ⟨next, last, ?_, ?_, ?_⟩
    · rw [WeightedHeap.draws, drawn]
      dsimp only
      rw [others]
      have start : fewer.succ + 1 - (numSamples + 1) = fewer + 1 - numSamples := by omega
      have top : fewer + 1 - numSamples + numSamples = fewer + 1 := by omega
      rw [start, List.range'_1_concat, top, List.reverse_append]
      rfl
    · have same : fewer.succ - (numSamples + 1) = fewer - numSamples := by omega
      rw [same]
      exact readyLast
    · intro _
      rcases Nat.eq_zero_or_pos numSamples with rfl | several
      · -- a single draw leaves the element it returns in the first place
        obtain ⟨_, rfl⟩ := Prod.mk.inj (Option.some.inj others)
        have listed := readyAfter.dormant.listed.symm.trans readyLast.dormant.listed
        have head := (List.cons.inj listed).1
        omega
      · have later := place several
        omega

omit [OrderTop P] in
/-- One draw more. -/
theorem draws_snoc {numSamples index : ℕ} {drawn : List ℕ} {middle last : WeightedHeap P}
    (before : s.draws numSamples = some (drawn, middle)) (one : middle.draw = some (index, last)) :
    s.draws (numSamples + 1) = some (drawn ++ [index], last) := by
  induction numSamples generalizing s drawn with
  | zero =>
    obtain ⟨rfl, rfl⟩ := Prod.mk.inj (Option.some.inj before)
    simp only [WeightedHeap.draws, one]
    rfl
  | succ numSamples inductionHypothesis =>
    rw [WeightedHeap.draws] at before ⊢
    split at before
    · cases before
    · rename_i index after _
      split at before
      · cases before
      · rename_i others final rest
        obtain ⟨rfl, rfl⟩ := Prod.mk.inj (Option.some.inj before)
        rw [inductionHypothesis rest]
        rfl

/-- The last draw from a heap returns the element that the draw before has returned, or the first
one if there was none. -/
theorem Ready.draws_all {first count : ℕ} (ready : s.Ready first count) :
    ∃ after, s.draws (count + 1) =
        some ((List.range' 1 count).reverse ++ [if count = 0 then first else 1], after) ∧
      after.Dormant [if count = 0 then first else 1] := by
  obtain ⟨next, middle, drawn, single, place⟩ := ready.draws (Nat.le_refl count)
  have last : next = if count = 0 then first else 1 := by
    rcases Nat.eq_zero_or_pos count with rfl | several
    · obtain ⟨_, rfl⟩ := Prod.mk.inj (Option.some.inj drawn)
      have listed := ready.dormant.listed.symm.trans single.dormant.listed
      rw [if_pos rfl]
      exact (List.cons.inj listed).1.symm
    · rw [if_neg (by omega), place several]
      omega
  rw [Nat.sub_self] at single
  obtain ⟨after, happened, dormant, number⟩ := single.dormant.update_single single.counted
  have one := Dormant.draw_of_update happened dormant (by omega)
  have all := draws_snoc drawn one
  rw [Nat.add_sub_cancel_left, last] at all
  exact ⟨after, all, last ▸ dormant⟩

/-- After `reset` the heap is ready again. -/
theorem Dormant.reset_ready {first count : ℕ}
    (dormant : s.Dormant (first :: List.range' 1 count)) :
    ∃ after, reset f s = some after ∧ after.Ready first count := by
  obtain ⟨after, done, number, next⟩ := reset_marked (f := f) dormant.marked
  rw [dormant.listed] at next
  rw [dormant.length, List.length_cons, List.length_range'] at number
  exact ⟨after, done, next, number⟩

/-- A call for as many elements as there are returns what is drawn, and resets the heap. -/
theorem sample_of_draws {numSamples : ℕ} {drawn : List ℕ} {middle after : WeightedHeap P}
    (positive : 1 ≤ numSamples) (enough : (numSamples : ℤ) ≤ s.numWeights)
    (draws : s.draws numSamples = some (drawn, middle)) (done : reset f middle = some after) :
    s.sample f numSamples = some (.ok drawn, after) := by
  rw [WeightedHeap.sample, if_neg (by omega), if_neg (by omega), Int.toNat_natCast, draws]
  dsimp only
  rw [done]

/-- A call that leaves an element in the heap returns the last elements. -/
theorem Ready.sample {first count numSamples : ℕ} (ready : s.Ready first count)
    (some : 1 ≤ numSamples) (enough : numSamples ≤ count) :
    ∃ after, s.sample f numSamples =
        Option.some (.ok (List.range' (count + 1 - numSamples) numSamples).reverse, after) ∧
      after.Ready (count - numSamples + 1) (count - numSamples) := by
  obtain ⟨next, middle, drawn, readyMiddle, place⟩ := ready.draws enough
  obtain ⟨after, done, readyAfter⟩ := readyMiddle.dormant.reset_ready (f := f)
  rw [place some] at readyAfter
  exact ⟨after, sample_of_draws some (by rw [ready.counted]; omega) drawn done, readyAfter⟩

/-- A call that empties the heap. -/
theorem Ready.sample_all {first count : ℕ} (ready : s.Ready first count) :
    ∃ after, s.sample f ((count + 1 : ℕ) : ℤ) = some
        (.ok ((List.range' 1 count).reverse ++ [if count = 0 then first else 1]), after) ∧
      after.Ready (if count = 0 then first else 1) 0 := by
  obtain ⟨middle, drawn, dormant⟩ := ready.draws_all
  have single : middle.Dormant ((if count = 0 then first else 1) :: List.range' 1 0) := dormant
  obtain ⟨after, done, readyAfter⟩ := single.reset_ready (f := f)
  exact ⟨after, sample_of_draws (by omega) (by rw [ready.counted]) drawn done, readyAfter⟩

/-- More elements than the heap has are refused. -/
theorem Ready.sample_refused {first count numSamples : ℕ} (ready : s.Ready first count)
    (many : count + 1 < numSamples) :
    s.sample f numSamples = some (.error (.tooManyElements (count + 1) numSamples), s) := by
  rw [WeightedHeap.sample, if_neg (by omega), if_pos (by rw [ready.counted]; omega), ready.counted]

/-- Different indices below `n`, as many as asked for. -/
structure Distinct (n numSamples : ℕ) (indices : List ℕ) : Prop where
  number : indices.length = numSamples
  nodup : indices.Nodup
  below : ∀ index ∈ indices, index < n

/-- Two calls of `Sample` in a row return different indices each. -/
def SamplesTwice (f : Floats P) (n numSamples : ℕ) (s : WeightedHeap P) : Prop :=
  ∃ first middle, s.sample f numSamples = some (.ok first, middle) ∧ Distinct n numSamples first ∧
    ∃ second last, middle.sample f numSamples = some (.ok second, last) ∧
      Distinct n numSamples second

/-- Neighbouring indices are distinct. -/
theorem distinct_range' {n start numSamples : ℕ} (below : start + numSamples ≤ n) :
    Distinct n numSamples (List.range' start numSamples).reverse := by
  refine ⟨by simp, List.nodup_reverse.mpr List.nodup_range', ?_⟩
  intro index member
  have bounds := List.mem_range'_1.mp (List.mem_reverse.mp member)
  omega

/-- Which calls return different indices. -/
theorem Ready.sample_distinct_iff {first count n numSamples : ℕ} (ready : s.Ready first count)
    (inside : first < n) (below : count < n) (some : 1 ≤ numSamples) :
    (∃ indices after, s.sample f numSamples = Option.some (.ok indices, after) ∧
      Distinct n numSamples indices) ↔ numSamples ≤ count ∨ numSamples = 1 ∧ count = 0 := by
  constructor
  · rintro ⟨indices, after, returned, distinct⟩
    by_contra neither
    rcases Nat.lt_or_ge (count + 1) numSamples with many | few
    · rw [ready.sample_refused many] at returned
      cases returned
    · obtain rfl : numSamples = count + 1 := by omega
      obtain ⟨other, all, _⟩ := ready.sample_all (f := f)
      obtain ⟨same, _⟩ := Prod.mk.inj (Option.some.inj (all.symm.trans returned))
      have repeated := distinct.nodup
      rw [← Except.ok.inj same, if_neg (by omega)] at repeated
      have apart := (List.nodup_append.mp repeated).2.2
      exact apart 1 (List.mem_reverse.mpr (List.mem_range'_1.mpr (by omega))) 1 (by simp) rfl
  · rintro (enough | ⟨rfl, rfl⟩)
    · obtain ⟨after, returned, _⟩ := ready.sample (f := f) some enough
      exact ⟨_, after, returned, distinct_range' (by omega)⟩
    · obtain ⟨after, returned, _⟩ := ready.sample_all (f := f)
      exact ⟨_, after, returned, ⟨rfl, by simp, by simpa using inside⟩⟩

/-- A heap that `Initialize` accepts is ready. -/
theorem initializeWith_ready {weights : List UInt64} {before : WeightedHeap P}
    (accepted : before.initializeWith f weights = some (s, none)) :
    s.Ready 0 (weights.length - 1) ∧ 1 ≤ weights.length := by
  obtain ⟨dormant, number, nonempty⟩ := initializeWith_dormant accepted
  obtain ⟨fewer, count⟩ : ∃ fewer, weights.length = fewer + 1 :=
    Nat.exists_eq_succ_of_ne_zero (by simpa using nonempty)
  rw [count] at dormant number ⊢
  have indices : List.range (fewer + 1) = 0 :: List.range' 1 fewer := by
    rw [List.range_eq_range', List.range'_succ]
  exact ⟨⟨indices ▸ dormant, number⟩, by omega⟩

/-- Two calls of `Sample` with a new heap return different indices exactly when more than twice as
many elements are there, or when a single index is drawn from at most two elements. -/
theorem heap_samples_twice_iff (before s : WeightedHeap P) (weights : List UInt64)
    (accepted : before.initializeWith f weights = some (s, none)) (numSamples : ℕ)
    (positive : 1 ≤ numSamples) (enough : numSamples ≤ weights.length) :
    SamplesTwice f weights.length numSamples s ↔
      2 * numSamples < weights.length ∨ numSamples = 1 ∧ weights.length ≤ 2 := by
  obtain ⟨ready, nonempty⟩ := initializeWith_ready accepted
  generalize weights.length = n at ready nonempty enough ⊢
  have first := ready.sample_distinct_iff (f := f) (n := n) nonempty (by omega) positive
  rcases Nat.lt_or_ge (n - 1) numSamples with all | fewer
  · -- The first call empties the heap.
    obtain rfl : n = numSamples := by omega
    rcases Nat.lt_or_ge 1 n with several | single
    · refine iff_of_false ?_ (by omega)
      rintro ⟨indices, middle, returned, distinct, _⟩
      have condition := first.mp ⟨indices, middle, returned, distinct⟩
      omega
    · obtain rfl : n = 1 := by omega
      refine iff_of_true ?_ (Or.inr ⟨rfl, by omega⟩)
      obtain ⟨middle, one, readyMiddle⟩ := ready.sample_all (f := f)
      obtain ⟨last, other, _⟩ := readyMiddle.sample_all (f := f)
      have alone : Distinct 1 1 [0] := ⟨rfl, by simp, by simp⟩
      exact ⟨[0], middle, one, alone, [0], last, other, alone⟩
  · obtain ⟨middle, returned, readyMiddle⟩ := ready.sample (f := f) positive fewer
    have distinct : Distinct n numSamples
        (List.range' (n - 1 + 1 - numSamples) numSamples).reverse := distinct_range' (by omega)
    have second := readyMiddle.sample_distinct_iff (f := f) (n := n) (by omega) (by omega) positive
    have both : SamplesTwice f n numSamples s ↔
        ∃ indices after, middle.sample f numSamples = some (.ok indices, after) ∧
          Distinct n numSamples indices := by
      constructor
      · rintro ⟨indices, other, again, _, later⟩
        obtain ⟨_, rfl⟩ := Prod.mk.inj (Option.some.inj (again.symm.trans returned))
        exact later
      · intro later
        exact ⟨_, middle, returned, distinct, later⟩
    rw [both, second]
    omega

/-- `Initialize` accepts weights whose scaled sums do not overflow. -/
theorem exists_accepted {weights : List UInt64} (nonempty : weights ≠ [])
    (fits : (fill f 0 0 (f.scaled weights)).2 = none) (before : WeightedHeap P) :
    ∃ s, before.initializeWith f weights = some (s, none) := by
  have counted : ¬ weights.length = 0 := by simpa using nonempty
  obtain ⟨_, marked⟩ := fill_accepted fits
  obtain ⟨after, done, _⟩ :=
    reset_marked (f := f) (s := ⟨(fill f 0 0 (f.scaled weights)).1, weights.length⟩) marked
  refine ⟨after, ?_⟩
  rw [initializeWith, if_neg counted]
  cases filled : fill f 0 0 (f.scaled weights) with
  | mk heap error =>
    rw [filled] at fits done
    obtain rfl : error = none := fits
    dsimp only
    rw [done]

/-- The scaled weights of one, one and five. -/
def sampleFloats : Floats Bool where
  scaled weights :=
    if weights = [1, 1, 5] then [2635249153387078656, 2635249153387078656, 13176245766935392256]
    else weights
  length_scaled weights := by
    split
    · rename_i same
      rw [same]
      rfl
    · rfl
  power _ _ := true
  zero := false

/-- The weights of the concrete runs are accepted. -/
theorem exists_sampleHeap :
    ∃ s, WeightedHeap.initializeWith sampleFloats [1, 1, 5] ⟨[], 0⟩ = some (s, none) :=
  exists_accepted (by simp) (by decide +kernel) _

/-- One of the three elements is drawn, twice. -/
theorem one_of_three_sampled_twice :
    ∃ s, WeightedHeap.initializeWith sampleFloats [1, 1, 5] ⟨[], 0⟩ = some (s, none) ∧
      SamplesTwice sampleFloats 3 1 s := by
  obtain ⟨s, accepted⟩ := exists_sampleHeap
  exact ⟨s, accepted, (heap_samples_twice_iff ⟨[], 0⟩ s [1, 1, 5] accepted 1 (by decide)
    (by decide)).mpr (Or.inl (by decide))⟩

/-- All three elements are asked for: the second one is returned twice. -/
theorem three_of_three_repeat :
    ∃ s, WeightedHeap.initializeWith sampleFloats [1, 1, 5] ⟨[], 0⟩ = some (s, none) ∧
      (∃ after, s.sample sampleFloats 3 = some (.ok [2, 1, 1], after)) ∧
      ¬ SamplesTwice sampleFloats 3 3 s := by
  obtain ⟨s, accepted⟩ := exists_sampleHeap
  obtain ⟨after, returned, _⟩ := (initializeWith_ready accepted).1.sample_all (f := sampleFloats)
  refine ⟨s, accepted, ⟨after, returned⟩, ?_⟩
  rintro ⟨indices, middle, again, distinct, _⟩
  obtain ⟨same, _⟩ := Prod.mk.inj (Option.some.inj (again.symm.trans returned))
  have repeated := distinct.nodup
  rw [Except.ok.inj same] at repeated
  revert repeated
  decide

end WeightedHeap

end AvalancheParallel.Sampler
