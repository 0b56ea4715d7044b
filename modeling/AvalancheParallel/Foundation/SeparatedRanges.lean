import Mathlib.Data.List.Basic
import Mathlib.Data.List.Induction
import Mathlib.Order.Lattice

/-!
# Separated ranges of numbers

A list of inclusive ranges in ascending order, with a gap of at least one number between
neighbours. Such a list is the list of the maximal runs of the set of numbers it covers,
and it is determined by that set. A number joins the set by growing a range, by filling
the gap between two, or as a range of its own; it leaves by shrinking a range or by
cutting one in two.
-/

namespace AvalancheParallel.SeparatedRanges

universe u
variable {ι : Type u} (low high : ι → ℕ)

/-- Nonempty ranges in ascending order that neither meet nor touch. -/
def Separated (ranges : List ι) : Prop :=
  (∀ range ∈ ranges, low range ≤ high range) ∧
    ranges.Pairwise (fun first second => high first + 1 < low second)

/-- The number is in one of the ranges. -/
def Covers (ranges : List ι) (n : ℕ) : Prop := ∃ range ∈ ranges, low range ≤ n ∧ n ≤ high range

variable {low high}

/-- No ranges are separated. -/
@[simp] theorem separated_nil : Separated low high [] := ⟨by simp, List.Pairwise.nil⟩

/-- No ranges cover nothing. -/
@[simp] theorem not_covers_nil (n : ℕ) : ¬ Covers low high [] n := by simp [Covers]

/-- The first range is apart from the rest. -/
theorem separated_cons {first : ι} {rest : List ι} :
    Separated low high (first :: rest) ↔
      low first ≤ high first ∧ (∀ range ∈ rest, high first + 1 < low range) ∧
        Separated low high rest := by
  unfold Separated
  rw [List.pairwise_cons, List.forall_mem_cons]
  exact ⟨fun ⟨⟨nonempty, others⟩, before, later⟩ => ⟨nonempty, before, others, later⟩,
    fun ⟨nonempty, before, others, later⟩ => ⟨⟨nonempty, others⟩, before, later⟩⟩

/-- Two parts are apart from each other. -/
theorem separated_append {front back : List ι} :
    Separated low high (front ++ back) ↔
      Separated low high front ∧ Separated low high back ∧
        ∀ first ∈ front, ∀ second ∈ back, high first + 1 < low second := by
  unfold Separated
  rw [List.pairwise_append, List.forall_mem_append]
  exact ⟨fun ⟨⟨one, other⟩, first, second, between⟩ => ⟨⟨one, first⟩, ⟨other, second⟩, between⟩,
    fun ⟨⟨one, first⟩, ⟨other, second⟩, between⟩ => ⟨⟨one, other⟩, first, second, between⟩⟩

/-- One range is separated when it is not empty. -/
theorem separated_singleton {range : ι} :
    Separated low high [range] ↔ low range ≤ high range := by
  simp [separated_cons]

/-- Two ranges are separated by a gap. -/
theorem separated_pair {first second : ι} :
    Separated low high [first, second] ↔
      low first ≤ high first ∧ high first + 1 < low second ∧ low second ≤ high second := by
  simp [separated_cons]

/-- Ranges in the middle of a list, with the room that the others leave them. -/
theorem separated_splice {front middle back : List ι} :
    Separated low high (front ++ middle ++ back) ↔
      Separated low high (front ++ back) ∧ Separated low high middle ∧
        (∀ first ∈ front, ∀ second ∈ middle, high first + 1 < low second) ∧
        ∀ first ∈ middle, ∀ second ∈ back, high first + 1 < low second := by
  rw [separated_append, separated_append, separated_append]
  simp only [List.mem_append]
  constructor
  · rintro ⟨⟨one, two, between⟩, three, across⟩
    exact ⟨⟨one, three, fun first member => across first (Or.inl member)⟩, two, between,
      fun first member => across first (Or.inr member)⟩
  · rintro ⟨⟨one, three, outer⟩, two, between, across⟩
    refine ⟨⟨one, two, between⟩, three, ?_⟩
    rintro first (member | member)
    · exact outer first member
    · exact across first member

/-- The first range or the rest covers a number. -/
theorem covers_cons {first : ι} {rest : List ι} {n : ℕ} :
    Covers low high (first :: rest) n ↔
      low first ≤ n ∧ n ≤ high first ∨ Covers low high rest n := by
  simp [Covers]

/-- One of two parts covers a number. -/
theorem covers_append {front back : List ι} {n : ℕ} :
    Covers low high (front ++ back) n ↔ Covers low high front n ∨ Covers low high back n := by
  simp only [Covers, List.mem_append, or_and_right, exists_or]

/-- One range covers what is between its bounds. -/
theorem covers_singleton {range : ι} {n : ℕ} :
    Covers low high [range] n ↔ low range ≤ n ∧ n ≤ high range := by
  simp [Covers]

/-- The part in the middle or what surrounds it covers a number. -/
theorem covers_splice {front middle back : List ι} {n : ℕ} :
    Covers low high (front ++ middle ++ back) n ↔
      Covers low high middle n ∨ Covers low high (front ++ back) n := by
  rw [covers_append, covers_append, covers_append, or_assoc, or_left_comm]

/-- A later range starts two or more after the end of an earlier one. -/
theorem covers_above {first : ι} {rest : List ι} {n : ℕ}
    (before : ∀ range ∈ rest, high first + 1 < low range) (covered : Covers low high rest n) :
    high first + 1 < n := by
  obtain ⟨range, member, above, _⟩ := covered
  exact lt_of_lt_of_le (before range member) above

/-- What the ranges in the middle cover, the others do not. -/
theorem not_covers_outside {front middle back : List ι} {n : ℕ}
    (separated : Separated low high (front ++ middle ++ back))
    (inside : Covers low high middle n) : ¬ Covers low high (front ++ back) n := by
  obtain ⟨_, _, after, before⟩ := separated_splice.mp separated
  obtain ⟨range, member, starts, ends⟩ := inside
  rw [covers_append]
  rintro (⟨other, outside, alsoStarts, alsoEnds⟩ | ⟨other, outside, alsoStarts, alsoEnds⟩)
  · have apart := after other outside range member
    omega
  · have apart := before range member other outside
    omega

/-- The number before the start of a range is in none. -/
theorem not_covers_before {ranges : List ι} {range : ι} (separated : Separated low high ranges)
    (member : range ∈ ranges) (positive : 0 < low range) :
    ¬ Covers low high ranges (low range - 1) := by
  obtain ⟨front, back, split⟩ := List.append_of_mem member
  rw [split, ← List.singleton_append, ← List.append_assoc] at separated ⊢
  obtain ⟨_, inner, after, before⟩ := separated_splice.mp separated
  rw [separated_singleton] at inner
  rw [covers_splice, covers_singleton, covers_append]
  rintro (own | ⟨other, outside, starts, ends⟩ | ⟨other, outside, starts, ends⟩)
  · omega
  · have apart := after other outside range (by simp)
    omega
  · have apart := before range (by simp) other outside
    omega

/-- The first range ends at the first gap. -/
theorem not_covers_after {first : ι} {rest : List ι}
    (separated : Separated low high (first :: rest)) :
    ¬ Covers low high (first :: rest) (high first + 1) := by
  rw [covers_cons]
  rintro (⟨_, above⟩ | later)
  · omega
  · have beyond := covers_above (separated_cons.mp separated).2.1 later
    omega

/-- Lists of separated ranges that cover the same numbers have the same ranges. -/
theorem bounds_eq_of_covers_iff {first second : List ι} (separated : Separated low high first)
    (alsoSeparated : Separated low high second)
    (same : ∀ n, Covers low high first n ↔ Covers low high second n) :
    first.map (fun range => (low range, high range)) =
      second.map (fun range => (low range, high range)) := by
  induction first generalizing second with
  | nil =>
    cases second with
    | nil => rfl
    | cons range rest =>
      have nonempty := (separated_cons.mp alsoSeparated).1
      have covered := (same (low range)).mpr (covers_cons.mpr (Or.inl ⟨le_refl _, nonempty⟩))
      exact absurd covered (not_covers_nil _)
  | cons range rest inductionHypothesis =>
    obtain ⟨nonempty, before, later⟩ := separated_cons.mp separated
    cases second with
    | nil =>
      have covered := (same (low range)).mp (covers_cons.mpr (Or.inl ⟨le_refl _, nonempty⟩))
      exact absurd covered (not_covers_nil _)
    | cons other others =>
      obtain ⟨alsoNonempty, alsoBefore, alsoLater⟩ := separated_cons.mp alsoSeparated
      -- The least covered number is the start of the first range of either list.
      have start : low range = low other := by
        have one := (same (low range)).mp (covers_cons.mpr (Or.inl ⟨le_refl _, nonempty⟩))
        have two := (same (low other)).mpr (covers_cons.mpr (Or.inl ⟨le_refl _, alsoNonempty⟩))
        rw [covers_cons] at one two
        have lower : low other ≤ low range := by
          rcases one with inside | beyond
          · exact inside.1
          · have := covers_above alsoBefore beyond
            omega
        have upper : low range ≤ low other := by
          rcases two with inside | beyond
          · exact inside.1
          · have := covers_above before beyond
            omega
        exact Nat.le_antisymm upper lower
      -- The first range of either list ends where the first gap of the other is not yet.
      have stop : high range = high other := by
        have gap := mt (same (high other + 1)).mp (not_covers_after alsoSeparated)
        have alsoGap := mt (same (high range + 1)).mpr (not_covers_after separated)
        rw [covers_cons] at gap alsoGap
        omega
      have rests : ∀ n, Covers low high rest n ↔ Covers low high others n := by
        intro n
        have whole := same n
        rw [covers_cons, covers_cons, start, stop] at whole
        constructor
        · intro covered
          have beyond := covers_above before covered
          rcases whole.mp (Or.inr covered) with inside | covered
          · omega
          · exact covered
        · intro covered
          have beyond := covers_above alsoBefore covered
          rcases whole.mpr (Or.inr covered) with inside | covered
          · omega
          · exact covered
      rw [List.map_cons, List.map_cons, start, stop, inductionHypothesis later alsoLater rests]

/-- Ascending numbers above a bound, each of which follows the bound or another of them, are the
numbers that follow the bound. -/
theorem eq_range'_of_gapless {start : ℕ} {numbers : List ℕ} (ascending : numbers.Pairwise (· < ·))
    (gapless : ∀ n ∈ numbers, start < n ∧ (n = start + 1 ∨ n - 1 ∈ numbers)) :
    numbers = List.range' (start + 1) numbers.length := by
  induction numbers using List.reverseRecOn with
  | nil => rfl
  | append_singleton front last inductionHypothesis =>
    obtain ⟨ascendingFront, _, below⟩ := List.pairwise_append.mp ascending
    have smaller : ∀ n ∈ front, n < last := fun n member => below n member last (by simp)
    have frontIs : front = List.range' (start + 1) front.length := by
      apply inductionHypothesis ascendingFront
      intro n member
      obtain ⟨above, first | follows⟩ := gapless n (by simp [member])
      · exact ⟨above, Or.inl first⟩
      · refine ⟨above, Or.inr ?_⟩
        rcases List.mem_append.mp follows with inside | own
        · exact inside
        · have := smaller n member
          have := List.mem_singleton.mp own
          omega
    have bounds : ∀ n, n ∈ front ↔ start + 1 ≤ n ∧ n < start + 1 + front.length := by
      intro n
      rw [frontIs, List.mem_range'_1, List.length_range']
    have follows : last = start + 1 + front.length := by
      obtain ⟨above, first | next⟩ := gapless last (by simp)
      · rcases Nat.eq_zero_or_pos front.length with none | some
        · omega
        · have least := smaller (start + 1) ((bounds _).mpr ⟨by omega, by omega⟩)
          omega
      · rcases List.mem_append.mp next with inside | own
        · have within := (bounds _).mp inside
          have greatest := smaller (start + front.length) ((bounds _).mpr ⟨by omega, by omega⟩)
          omega
        · have := List.mem_singleton.mp own
          omega
    rw [List.length_append, List.length_singleton, List.range'_1_concat, ← frontIs, follows]

end AvalancheParallel.SeparatedRanges
