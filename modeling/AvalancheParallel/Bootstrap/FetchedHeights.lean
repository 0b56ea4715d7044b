import Mathlib.Data.Finset.Card
import AvalancheParallel.Bootstrap.IntervalTree
import AvalancheParallel.Foundation.Runs

/-!
# The fetched heights as a set, and their persistence

The interval tree stands for a set of heights. Every call keeps its ranges the maximal runs
of that set and its counter the number of heights modulo 2⁶⁴, and the database with the
pending batch holds exactly one entry for each range. A tree loaded from the database is
therefore the tree at the last write of the batch, range by range and count included; only the
pointers to the ranges are others.

A batch that is reset keeps its operations and performs them again at its next write; the
law covers such batches as well as new ones.
-/

namespace AvalancheParallel.Bootstrap.IntervalTree

open AvalancheParallel.Database
open AvalancheParallel.ByteOrder
open AvalancheParallel.SortedStore
open AvalancheParallel.BTreeG (ascend)
open AvalancheParallel.SeparatedRanges
open AvalancheParallel.Runs

/-! ## Ranges after a change -/

/-- The number of heights of the ranges, as `NewTree` counts them. -/
def total : List Interval → UInt64
  | [] => 0
  | i :: rest => (i.upperBound - i.lowerBound + 1) + total rest

/-- The number of heights in two parts of a list. -/
theorem total_append (front back : List Interval) :
    total (front ++ back) = total front + total back := by
  induction front with
  | nil => simp [total]
  | cons i rest inductionHypothesis =>
    rw [List.cons_append, total, total, inductionHypothesis, ← UInt64.add_assoc]

/-- The successor of a number, without overflow. -/
theorem eq_add_one {value next : UInt64} (follows : value.toNat + 1 = next.toNat) :
    next = value + 1 := by
  have room : value.toNat + 1 < 2 ^ 64 := follows ▸ next.toNat_lt
  apply UInt64.toNat_inj.mp
  rw [toNat_add_one room, follows]

/-- Ranges in the middle give way to others that lie in the same gap. -/
structure Fits (front new back : List Interval) : Prop where
  canonical : Canonical new
  after : ∀ i ∈ front, ∀ j ∈ new, i.high + 1 < j.low
  before : ∀ i ∈ new, ∀ j ∈ back, i.high + 1 < j.low

/-- Intervals that fit between their neighbours may take the place of others. -/
theorem Fits.splice {front old new back : List Interval} (fits : Fits front new back)
    (canonical : Canonical (front ++ old ++ back)) : Canonical (front ++ new ++ back) :=
  separated_splice.mpr
    ⟨(separated_splice.mp canonical).1, fits.canonical, fits.after, fits.before⟩

/-- One range that fits. -/
theorem Fits.one {front back : List Interval} {new : Interval} (nonempty : new.low ≤ new.high)
    (after : ∀ i ∈ front, i.high + 1 < new.low) (before : ∀ j ∈ back, new.high + 1 < j.low) :
    Fits front [new] back where
  canonical := separated_singleton.mpr nonempty
  after i member j own := by
    rw [List.mem_singleton.mp own]
    exact after i member
  before i own := by
    rw [List.mem_singleton.mp own]
    exact before

/-- A height joins: the ranges stay canonical, cover one height more and count one more. -/
theorem Growth.law {height : UInt64} {known after : List Interval}
    {record : BatchOps → BatchOps} (growth : Growth height known after record)
    (canonical : Canonical known) :
    Canonical after ∧
      (∀ n, Covers Interval.low Interval.high after n ↔
        n = height.toNat ∨ Covers Interval.low Interval.high known n) ∧
      total after = total known + 1 := by
  cases growth with
  | join front back lower upper below above =>
    obtain ⟨_, inner, apart, alsoApart⟩ := separated_splice.mp canonical
    simp only [separated_pair, List.forall_mem_cons] at inner apart alsoApart
    have fits : Fits front [⟨lower.lowerBound, upper.upperBound⟩] back := by
      apply Fits.one
      · change lower.low ≤ upper.high
        omega
      · exact fun i member => (apart i member).1
      · exact alsoApart.2.1
    refine ⟨fits.splice canonical, ?_, ?_⟩
    · intro n
      rw [covers_splice, covers_splice, covers_singleton, covers_cons, covers_singleton,
        ← or_assoc]
      apply or_congr_left
      change lower.low ≤ n ∧ n ≤ upper.high ↔ _
      omega
    · have next := eq_add_one below
      have afterNext := eq_add_one above
      simp only [total_append, total]
      grind
  | down front back upper gap above =>
    obtain ⟨_, inner, _, alsoApart⟩ := separated_splice.mp canonical
    rw [separated_singleton] at inner
    have fits : Fits front [⟨height, upper.upperBound⟩] back := by
      apply Fits.one
      · change height.toNat ≤ upper.high
        omega
      · exact gap
      · exact alsoApart upper (by simp)
    refine ⟨fits.splice canonical, ?_, ?_⟩
    · intro n
      rw [covers_splice, covers_splice, covers_singleton, covers_singleton, ← or_assoc]
      apply or_congr_left
      change height.toNat ≤ n ∧ n ≤ upper.high ↔ _
      omega
    · have next := eq_add_one above
      simp only [total_append, total]
      grind
  | up front back lower below gap =>
    obtain ⟨_, inner, apart, _⟩ := separated_splice.mp canonical
    rw [separated_singleton] at inner
    have fits : Fits front [⟨lower.lowerBound, height⟩] back := by
      apply Fits.one
      · change lower.low ≤ height.toNat
        omega
      · exact fun i member => apart i member lower (by simp)
      · exact gap
    refine ⟨fits.splice canonical, ?_, ?_⟩
    · intro n
      rw [covers_splice, covers_splice, covers_singleton, covers_singleton, ← or_assoc]
      apply or_congr_left
      change lower.low ≤ n ∧ n ≤ height.toNat ↔ _
      omega
    · have next := eq_add_one below
      simp only [total_append, total]
      grind
  | fresh front back gapBelow gapAbove =>
    have fits : Fits front [⟨height, height⟩] back :=
      Fits.one (Nat.le_refl height.toNat) gapBelow gapAbove
    refine ⟨fits.splice canonical, ?_, ?_⟩
    · intro n
      rw [covers_splice, covers_singleton, List.append_nil]
      apply or_congr_left
      change height.toNat ≤ n ∧ n ≤ height.toNat ↔ _
      omega
    · simp only [total_append, total]
      grind

/-- What remains of the covered numbers when the middle loses a height it covered. -/
theorem covers_removed {front old new back : List Interval} {height : ℕ}
    (canonical : Canonical (front ++ old ++ back))
    (inside : Covers Interval.low Interval.high old height)
    (rest : ∀ n, Covers Interval.low Interval.high new n ↔
      n ≠ height ∧ Covers Interval.low Interval.high old n) (n : ℕ) :
    Covers Interval.low Interval.high (front ++ new ++ back) n ↔
      n ≠ height ∧ Covers Interval.low Interval.high (front ++ old ++ back) n := by
  have outside := not_covers_outside canonical inside
  rw [covers_splice, covers_splice, rest n, and_or_left]
  apply or_congr_right
  constructor
  · intro covered
    refine ⟨?_, covered⟩
    rintro rfl
    exact outside covered
  · exact And.right

/-- The lower bound of a range of more than one height does not wrap when it is raised. -/
theorem Interval.toNat_raised (i : Interval) (wide : i.low < i.high) :
    (i.lowerBound + 1).toNat = i.low + 1 := by
  have bounded := i.high_lt
  apply toNat_add_one
  change i.low + 1 < _
  omega

section Shrinking

variable {front back : List Interval} {higher : Interval}

/-- A range that loses its lowest height still fits. -/
theorem fits_raised (canonical : Canonical (front ++ [higher] ++ back))
    (wide : higher.low < higher.high) :
    Fits front [⟨higher.lowerBound + 1, higher.upperBound⟩] back := by
  obtain ⟨_, _, apart, alsoApart⟩ := separated_splice.mp canonical
  have raised := higher.toNat_raised wide
  apply Fits.one
  · change (higher.lowerBound + 1).toNat ≤ higher.high
    omega
  · intro i member
    have gap := apart i member higher (by simp)
    change i.high + 1 < (higher.lowerBound + 1).toNat
    omega
  · exact alsoApart higher (by simp)

/-- A range that loses its highest height still fits. -/
theorem fits_lowered (canonical : Canonical (front ++ [higher] ++ back))
    (wide : higher.low < higher.high) :
    Fits front [⟨higher.lowerBound, higher.upperBound - 1⟩] back := by
  obtain ⟨_, _, apart, alsoApart⟩ := separated_splice.mp canonical
  have lowered : (higher.upperBound - 1).toNat = higher.high - 1 :=
    toNat_sub_one (by change 0 < higher.high; omega)
  apply Fits.one
  · change higher.low ≤ (higher.upperBound - 1).toNat
    omega
  · exact fun i member => apart i member higher (by simp)
  · intro j member
    have gap := alsoApart higher (by simp) j member
    change (higher.upperBound - 1).toNat + 1 < j.low
    omega

/-- The two parts of a range that loses a height inside it fit. -/
theorem fits_cut {height : UInt64} (canonical : Canonical (front ++ [higher] ++ back))
    (below : higher.low < height.toNat) (above : height.toNat < higher.high) :
    Fits front [⟨higher.lowerBound, height - 1⟩, ⟨height + 1, higher.upperBound⟩] back := by
  obtain ⟨_, _, apart, alsoApart⟩ := separated_splice.mp canonical
  have bounded := higher.high_lt
  have lowered : (height - 1).toNat = height.toNat - 1 := toNat_sub_one (by omega)
  have raised : (height + 1).toNat = height.toNat + 1 := toNat_add_one (by omega)
  refine ⟨separated_pair.mpr ?_, ?_, ?_⟩
  · change higher.low ≤ (height - 1).toNat ∧ (height - 1).toNat + 1 < (height + 1).toNat ∧
      (height + 1).toNat ≤ higher.high
    omega
  · intro i member j own
    have gap := apart i member higher (by simp)
    simp only [List.mem_cons, List.not_mem_nil, or_false] at own
    rcases own with rfl | rfl
    · exact gap
    · change i.high + 1 < (height + 1).toNat
      omega
  · intro i own j member
    have gap := alsoApart higher (by simp) j member
    simp only [List.mem_cons, List.not_mem_nil, or_false] at own
    rcases own with rfl | rfl
    · change (height - 1).toNat + 1 < j.low
      omega
    · exact gap

end Shrinking

/-- A height leaves: the ranges stay canonical, cover one height less and count one less. -/
theorem Shrinkage.law {height : UInt64} {known after : List Interval}
    {record : BatchOps → BatchOps} (shrinkage : Shrinkage height known after record)
    (canonical : Canonical known) :
    Canonical after ∧
      (∀ n, Covers Interval.low Interval.high after n ↔
        n ≠ height.toNat ∧ Covers Interval.low Interval.high known n) ∧
      total after = total known - 1 := by
  cases shrinkage with
  | drop front back higher below above =>
    have inside : Covers Interval.low Interval.high [higher] height.toNat :=
      covers_singleton.mpr ⟨by omega, by omega⟩
    refine ⟨?_, covers_removed canonical inside ?_, ?_⟩
    · rw [List.append_nil]
      exact (separated_splice.mp canonical).1
    · intro n
      rw [covers_singleton]
      exact iff_of_false (not_covers_nil n) (by omega)
    · have same : higher.lowerBound = higher.upperBound := UInt64.toNat_inj.mp (below.trans above)
      simp only [total_append, total]
      grind
  | raise front back higher below above =>
    have raised := higher.toNat_raised (by omega)
    have inside : Covers Interval.low Interval.high [higher] height.toNat :=
      covers_singleton.mpr ⟨by omega, by omega⟩
    have fits := fits_raised canonical (by omega)
    refine ⟨fits.splice canonical, covers_removed canonical inside ?_, ?_⟩
    · intro n
      rw [covers_singleton, covers_singleton]
      change (higher.lowerBound + 1).toNat ≤ n ∧ n ≤ higher.high ↔ _
      omega
    · simp only [total_append, total]
      grind
  | lower front back higher below above =>
    have lowered : (higher.upperBound - 1).toNat = higher.high - 1 :=
      toNat_sub_one (by change 0 < higher.high; omega)
    have inside : Covers Interval.low Interval.high [higher] height.toNat :=
      covers_singleton.mpr ⟨by omega, by omega⟩
    have fits := fits_lowered canonical (by omega)
    refine ⟨fits.splice canonical, covers_removed canonical inside ?_, ?_⟩
    · intro n
      rw [covers_singleton, covers_singleton]
      change higher.low ≤ n ∧ n ≤ (higher.upperBound - 1).toNat ↔ _
      omega
    · simp only [total_append, total]
      grind
  | cut front back higher below above =>
    have lowered : (height - 1).toNat = height.toNat - 1 := toNat_sub_one (by omega)
    have raised : (height + 1).toNat = height.toNat + 1 :=
      toNat_add_one (by have := higher.high_lt; omega)
    have inside : Covers Interval.low Interval.high [higher] height.toNat :=
      covers_singleton.mpr ⟨by omega, by omega⟩
    have fits := fits_cut canonical below above
    refine ⟨fits.splice canonical, covers_removed canonical inside ?_, ?_⟩
    · intro n
      rw [covers_cons, covers_singleton, covers_singleton]
      change higher.low ≤ n ∧ n ≤ (height - 1).toNat ∨
        (height + 1).toNat ≤ n ∧ n ≤ higher.high ↔ _
      omega
    · simp only [total_append, total]
      grind

/-! ## The entries of the database -/

/-- The database holds one entry for each range under the keys of ranges. -/
def Mirrors (known : List Interval) (db : MemDb) : Prop :=
  ∀ key value, [0] <+: key →
    (db.get key = some value ↔
      ∃ i ∈ known, key = makeIntervalKey i.upperBound ∧ value = packUInt64 i.lowerBound)

/-- Intervals with different upper bounds have different keys. -/
theorem makeIntervalKey_injective : Function.Injective makeIntervalKey := by
  intro first second same
  exact packUInt64_injective (List.cons.inj same).2

/-- What a record in the batch does to the entries of ranges: those of the new ranges are there,
those of the old ones that are not also new are gone, and no other key changes. -/
structure Records (record : BatchOps → BatchOps) (old new : List Interval) : Prop where
  written : ∀ batch db, ∀ i ∈ new,
    ((record batch).write db).get (makeIntervalKey i.upperBound) = some (packUInt64 i.lowerBound)
  removed : ∀ batch db, ∀ i ∈ old, (∀ j ∈ new, j.upperBound ≠ i.upperBound) →
    ((record batch).write db).get (makeIntervalKey i.upperBound) = none
  kept : ∀ batch db key, (∀ i ∈ old, key ≠ makeIntervalKey i.upperBound) →
    (∀ i ∈ new, key ≠ makeIntervalKey i.upperBound) →
    ((record batch).write db).get key = (batch.write db).get key

/-- A lookup after an interval is put. -/
theorem get_putInterval (batch : BatchOps) (db : MemDb) (upperBound lowerBound : UInt64)
    (key : Bytes) :
    ((putInterval batch upperBound lowerBound).write db).get key =
      if key = makeIntervalKey upperBound then some (packUInt64 lowerBound)
      else (batch.write db).get key := get_write_put ..

/-- A lookup after an interval is deleted. -/
theorem get_deleteInterval (batch : BatchOps) (db : MemDb) (upperBound : UInt64) (key : Bytes) :
    ((deleteInterval batch upperBound).write db).get key =
      if key = makeIntervalKey upperBound then none else (batch.write db).get key :=
  get_write_delete ..

/-- Replaced ranges keep the database and the batch in step with the tree. -/
theorem Mirrors.splice {front old new back : List Interval} {record : BatchOps → BatchOps}
    {batch : BatchOps} {db : MemDb} (canonical : Canonical (front ++ old ++ back))
    (canonicalAfter : Canonical (front ++ new ++ back)) (records : Records record old new)
    (mirrors : Mirrors (front ++ old ++ back) (batch.write db)) :
    Mirrors (front ++ new ++ back) ((record batch).write db) := by
  intro key value own
  by_cases fresh : ∃ i ∈ new, key = makeIntervalKey i.upperBound
  · obtain ⟨i, member, rfl⟩ := fresh
    have inside : i ∈ front ++ new ++ back := by simp [member]
    rw [records.written batch db i member, Option.some.injEq]
    constructor
    · rintro rfl
      exact ⟨i, inside, rfl, rfl⟩
    · rintro ⟨j, alsoInside, sameKey, rfl⟩
      rw [canonicalAfter.unique inside alsoInside (makeIntervalKey_injective sameKey)]
  · have notNew : ∀ i ∈ new, key ≠ makeIntervalKey i.upperBound :=
      fun i member same => fresh ⟨i, member, same⟩
    by_cases stale : ∃ i ∈ old, key = makeIntervalKey i.upperBound
    · obtain ⟨i, member, rfl⟩ := stale
      have gone := records.removed batch db i member
        (fun j inNew same => notNew j inNew (congrArg makeIntervalKey same.symm))
      rw [gone]
      refine iff_of_false (by simp) ?_
      rintro ⟨j, alsoInside, sameKey, _⟩
      have sameBound := makeIntervalKey_injective sameKey
      have outer : j ∈ front ++ back := by
        have absent : j ∉ new := fun inNew => notNew j inNew sameKey
        simp only [List.mem_append] at alsoInside ⊢
        tauto
      -- An outer range with the same upper bound would be the replaced one.
      have inside : i ∈ front ++ old ++ back := by simp [member]
      have alsoBefore : j ∈ front ++ old ++ back := by
        simp only [List.mem_append] at outer ⊢
        tauto
      obtain rfl := canonical.unique inside alsoBefore sameBound
      have nonempty := canonical.1 i inside
      apply not_covers_outside canonical ⟨i, member, le_refl _, nonempty⟩
      exact ⟨i, outer, le_refl _, nonempty⟩
    · have notOld : ∀ i ∈ old, key ≠ makeIntervalKey i.upperBound :=
        fun i member same => stale ⟨i, member, same⟩
      rw [records.kept batch db key notOld notNew, mirrors key value own]
      constructor
      · rintro ⟨i, member, sameKey, sameValue⟩
        refine ⟨i, ?_, sameKey, sameValue⟩
        simp only [List.mem_append] at member ⊢
        have absent : i ∉ old := fun inOld => notOld i inOld sameKey
        tauto
      · rintro ⟨i, member, sameKey, sameValue⟩
        refine ⟨i, ?_, sameKey, sameValue⟩
        simp only [List.mem_append] at member ⊢
        have absent : i ∉ new := fun inNew => notNew i inNew sameKey
        tauto

/-- One entry is written in the place of those under the same key. -/
theorem records_put {upperBound lowerBound : UInt64} {old : List Interval}
    (same : ∀ i ∈ old, i.upperBound = upperBound) :
    Records (fun batch => putInterval batch upperBound lowerBound) old
      [⟨lowerBound, upperBound⟩] where
  written batch db i member := by
    rw [List.mem_singleton.mp member, get_putInterval, if_pos rfl]
  removed batch db i member different := by
    rw [List.forall_mem_singleton] at different
    exact absurd (same i member).symm different
  kept batch db key _ notNew := by
    rw [List.forall_mem_singleton] at notNew
    rw [get_putInterval, if_neg notNew]

/-- One entry is deleted and one is written. -/
theorem records_move {gone upperBound lowerBound : UInt64} {old : List Interval}
    (present : ∃ i ∈ old, i.upperBound = gone)
    (only : ∀ i ∈ old, i.upperBound = gone ∨ i.upperBound = upperBound) :
    Records (fun batch => putInterval (deleteInterval batch gone) upperBound lowerBound) old
      [⟨lowerBound, upperBound⟩] where
  written batch db i member := by
    rw [List.mem_singleton.mp member, get_putInterval, if_pos rfl]
  removed batch db i member different := by
    have notNew := different _ (List.mem_singleton.mpr rfl)
    rw [get_putInterval, if_neg (fun same => notNew (makeIntervalKey_injective same).symm),
      get_deleteInterval]
    rcases only i member with same | same
    · rw [if_pos (congrArg makeIntervalKey same)]
    · exact absurd same.symm notNew
  kept batch db key notOld notNew := by
    obtain ⟨i, member, rfl⟩ := present
    rw [List.forall_mem_singleton] at notNew
    rw [get_putInterval, if_neg notNew, get_deleteInterval, if_neg (notOld i member)]

/-- One entry is deleted. -/
theorem records_delete (i : Interval) :
    Records (fun batch => deleteInterval batch i.upperBound) [i] [] where
  written _ _ _ member := absurd member List.not_mem_nil
  removed batch db j member _ := by
    rw [List.mem_singleton.mp member, get_deleteInterval, if_pos rfl]
  kept batch db key notOld _ := by
    rw [get_deleteInterval, if_neg (notOld i (by simp))]

/-- Two entries are written, one in the place of the old one. -/
theorem records_pair {i lower upper : Interval} (different : lower.upperBound ≠ upper.upperBound)
    (same : i.upperBound = upper.upperBound) :
    Records (fun batch => putInterval (putInterval batch lower.upperBound lower.lowerBound)
      upper.upperBound upper.lowerBound) [i] [lower, upper] where
  written batch db j member := by
    simp only [List.mem_cons, List.not_mem_nil, or_false] at member
    rcases member with rfl | rfl
    · rw [get_putInterval, if_neg (fun equal => different (makeIntervalKey_injective equal)),
        get_putInterval, if_pos rfl]
    · rw [get_putInterval, if_pos rfl]
  removed batch db j member fresh := by
    rw [List.mem_singleton.mp member] at fresh
    exact absurd same.symm (fresh upper (by simp))
  kept batch db key _ notNew := by
    rw [get_putInterval, if_neg (notNew upper (by simp)), get_putInterval,
      if_neg (notNew lower (by simp))]

/-- The ranges that a growth replaces, with what it records. -/
theorem Growth.records {height : UInt64} {known after : List Interval}
    {record : BatchOps → BatchOps} (growth : Growth height known after record) :
    ∃ front old new back, known = front ++ old ++ back ∧ after = front ++ new ++ back ∧
      Records record old new := by
  cases growth with
  | join front back lower upper below above =>
    exact ⟨front, _, _, back, rfl, rfl, records_move ⟨lower, by simp, rfl⟩ (by simp)⟩
  | down front back upper gap above =>
    exact ⟨front, _, _, back, rfl, rfl, records_put (by simp)⟩
  | up front back lower below gap =>
    exact ⟨front, _, _, back, rfl, rfl, records_move ⟨lower, by simp, rfl⟩ (by simp)⟩
  | fresh front back gapBelow gapAbove =>
    exact ⟨front, _, _, back, rfl, rfl, records_put (by simp)⟩

/-- The ranges that a shrinkage replaces, with what it records. -/
theorem Shrinkage.records {height : UInt64} {known after : List Interval}
    {record : BatchOps → BatchOps} (shrinkage : Shrinkage height known after record) :
    ∃ front old new back, known = front ++ old ++ back ∧ after = front ++ new ++ back ∧
      Records record old new := by
  cases shrinkage with
  | drop front back higher below above =>
    exact ⟨front, _, _, back, rfl, rfl, records_delete higher⟩
  | raise front back higher below above =>
    exact ⟨front, _, _, back, rfl, rfl, records_put (by simp)⟩
  | lower front back higher below above =>
    exact ⟨front, _, _, back, rfl, rfl, records_move ⟨higher, by simp, rfl⟩ (by simp)⟩
  | cut front back higher below above =>
    have different : height - 1 ≠ higher.upperBound := by
      intro same
      have equal : (height - 1).toNat = higher.high := congrArg UInt64.toNat same
      rw [toNat_sub_one (by omega)] at equal
      omega
    exact ⟨front, _, _, back, rfl, rfl,
      @records_pair higher ⟨higher.lowerBound, height - 1⟩ ⟨height + 1, higher.upperBound⟩
        different rfl⟩

/-- A key that is not one of the ranges keeps its value. -/
theorem Records.kept_foreign {record : BatchOps → BatchOps} {old new : List Interval}
    (records : Records record old new) (batch : BatchOps) (db : MemDb) {key : Bytes}
    (foreign : ¬ [0] <+: key) :
    ((record batch).write db).get key = (batch.write db).get key := by
  have other : ∀ upperBound, key ≠ makeIntervalKey upperBound := by
    rintro upperBound rfl
    exact foreign ⟨packUInt64 upperBound, rfl⟩
  exact records.kept batch db key (fun i _ => other _) (fun i _ => other _)

/-! ## The calls of the tree -/

section Trees

variable {B : Type} [BTreeG Pointer B]

/-- The tree is canonical, counts its heights, and is what a database holds. -/
structure InStep (tree : Tree B) (db : MemDb) : Prop where
  canonical : Canonical tree.flatten
  counted : tree.numKnownHeights = total tree.flatten
  mirrors : Mirrors tree.flatten db

/-- A tree with the same ranges and the same count is in step as well. -/
theorem InStep.congr {tree other : Tree B} {db : MemDb} (inStep : InStep tree db)
    (ranges : other.flatten = tree.flatten)
    (count : other.numKnownHeights = tree.numKnownHeights) : InStep other db := by
  constructor
  · rw [ranges]
    exact inStep.canonical
  · rw [ranges, count]
    exact inStep.counted
  · rw [ranges]
    exact inStep.mirrors

/-- What a call leaves: a tree in step with the database and the batch, which covers and counts
what the call makes it, and every key that is not one of the ranges as it was. -/
structure Leaves (covered : ℕ → Prop) (counted : UInt64) (batch : BatchOps) (db : MemDb)
    (after : Tree B × BatchOps) : Prop where
  inStep : InStep after.1 (after.2.write db)
  covers : ∀ n, Covers Interval.low Interval.high after.1.flatten n ↔ covered n
  count : after.1.numKnownHeights = counted
  foreign : ∀ key, ¬ [0] <+: key → (after.2.write db).get key = (batch.write db).get key

/-- The ranges that a call replaced are in step with the database and the batch. -/
theorem Leaves.of_splice {tree after : Tree B} {batch : BatchOps} {db : MemDb}
    {record : BatchOps → BatchOps} {covered : ℕ → Prop} {counted : UInt64}
    (inStep : InStep tree (batch.write db)) (canonical : Canonical after.flatten)
    (covers : ∀ n, Covers Interval.low Interval.high after.flatten n ↔ covered n)
    (count : total after.flatten = counted) (number : after.numKnownHeights = counted)
    (splice : ∃ front old new back, tree.flatten = front ++ old ++ back ∧
      after.flatten = front ++ new ++ back ∧ Records record old new) :
    Leaves covered counted batch db (after, record batch) := by
  obtain ⟨front, old, new, back, before, replaced, records⟩ := splice
  obtain ⟨canonicalBefore, _, mirrors⟩ := inStep
  rw [before] at canonicalBefore mirrors
  have canonicalAfter := canonical
  rw [replaced] at canonicalAfter
  have mirrorsAfter := mirrors.splice canonicalBefore canonicalAfter records
  rw [← replaced] at mirrorsAfter
  exact ⟨⟨canonical, number.trans count.symm, mirrorsAfter⟩, covers, number,
    fun key foreign => records.kept_foreign batch db foreign⟩

variable [LawfulBTreeG Pointer B]

/-- `Add` on a tree that is in step. -/
theorem InStep.add {tree : Tree B} {batch : BatchOps} {db : MemDb}
    (inStep : InStep tree (batch.write db)) {height : UInt64}
    (absent : ¬ Holds tree.flatten height) :
    Leaves (fun n => n = height.toNat ∨ Covers Interval.low Interval.high tree.flatten n)
      (tree.numKnownHeights + 1) batch db (tree.add batch height) := by
  obtain ⟨after, record, growth, number, added⟩ := Tree.add_growth inStep.canonical absent
  obtain ⟨canonical, covers, count⟩ := growth.law inStep.canonical
  rw [added batch]
  rw [← inStep.counted] at count
  exact Leaves.of_splice inStep canonical covers count number growth.records

/-- `Remove` on a tree that is in step. -/
theorem InStep.remove {tree : Tree B} {batch : BatchOps} {db : MemDb}
    (inStep : InStep tree (batch.write db)) {height : UInt64}
    (held : Holds tree.flatten height) :
    Leaves (fun n => n ≠ height.toNat ∧ Covers Interval.low Interval.high tree.flatten n)
      (tree.numKnownHeights - 1) batch db (tree.remove batch height) := by
  obtain ⟨after, record, shrinkage, number, removed⟩ :=
    Tree.remove_shrinkage inStep.canonical held
  obtain ⟨canonical, covers, count⟩ := shrinkage.law inStep.canonical
  rw [removed batch]
  rw [← inStep.counted] at count
  exact Leaves.of_splice inStep canonical covers count number shrinkage.records

end Trees

/-! ## Loading the tree -/

/-- The entry of a range. -/
def entry (i : Interval) : Bytes × Bytes := (makeIntervalKey i.upperBound, packUInt64 i.lowerBound)

/-- The keys of the intervals are ordered as their upper bounds. -/
theorem makeIntervalKey_lt_iff (first second : UInt64) :
    makeIntervalKey first < makeIntervalKey second ↔ first < second := by
  change [0] ++ packUInt64 first < [0] ++ packUInt64 second ↔ _
  rw [append_lt_append_iff]
  exact bigEndian64_lt_iff first second

/-- The entries of canonical ranges are in key order. -/
theorem ascending_entries {known : List Interval} (canonical : Canonical known) :
    Ascending (known.map entry) := by
  unfold Ascending
  rw [List.pairwise_map]
  apply canonical.ordered.imp
  intro i j before
  exact (makeIntervalKey_lt_iff _ _).mpr (by simpa [Interval.less] using before)

/-- The entry of an interval is read back as the interval. -/
@[simp] theorem readInterval_entry (i : Interval) : readInterval (entry i) = .ok i := by
  simp [readInterval, entry, makeIntervalKey]

/-- Reading the entries gives the ranges. -/
theorem mapM_readInterval (known : List Interval) :
    (known.map entry).mapM readInterval = .ok known := by
  induction known with
  | nil => rfl
  | cons i rest inductionHypothesis =>
    rw [List.map_cons, List.mapM_cons, readInterval_entry, inductionHypothesis]
    rfl

/-- `GetIntervals` returns the mirrored ranges. -/
theorem getIntervals_of_mirrors {known : List Interval} {db : MemDb}
    (canonical : Canonical known) (mirrors : Mirrors known db) : getIntervals db = .ok known := by
  have listed : newIteratorWithPrefix db [0] = known.map entry := by
    apply Ascending.ext (ascending_newIteratorWithPrefix db [0]) (ascending_entries canonical)
    rintro ⟨key, value⟩
    rw [mem_newIteratorWithPrefix, List.mem_map]
    constructor
    · rintro ⟨own, found⟩
      obtain ⟨i, member, rfl, rfl⟩ := (mirrors key value own).mp found
      exact ⟨i, member, rfl⟩
    · rintro ⟨i, member, same⟩
      obtain ⟨rfl, rfl⟩ := (Prod.mk.injEq _ _ _ _).mp same
      have own : [0] <+: makeIntervalKey i.upperBound := ⟨packUInt64 i.upperBound, rfl⟩
      exact ⟨own, (mirrors _ _ own).mpr ⟨i, member, rfl, rfl⟩⟩
  rw [getIntervals, listed, mapM_readInterval]

section Loading

variable {B : Type} [BTreeG Pointer B] [LawfulBTreeG Pointer B]

/-- The tree without heights has no ranges. -/
@[simp] theorem Tree.flatten_empty : (Tree.empty : Tree B).flatten = [] := by
  have nothing : ascend (BTreeG.newG treeDegree : B) = [] :=
    LawfulBTreeG.ascend_newG treeDegree (by decide)
  rw [Tree.flatten, Tree.empty, nothing, List.map_nil]

/-- Loading a range that comes after those of the tree appends it. -/
theorem Tree.flatten_load {tree : Tree B} {i : Interval}
    (canonical : Canonical (tree.flatten ++ [i])) :
    (tree.load i).flatten = tree.flatten ++ [i] := by
  have absent := tree.fresh_notMem
  have same : (tree.write tree.fresh i).flatten = tree.flatten :=
    flatten_write_of_notMem absent i
  have own := tree.write_own tree.fresh i
  have kept := tree.map_write_of_notMem i absent
  have before := canonical.around.1
  have placed : ascend ((tree.write tree.fresh i).replaceOrInsert tree.fresh).knownHeights =
      ascend tree.knownHeights ++ [tree.fresh] := by
    apply ascend_insert _ (List.append_nil _).symm
    · intro p member
      have moved := List.mem_map_of_mem (f := (tree.write tree.fresh i).intervals) member
      rw [own]
      exact before _ (same ▸ moved)
    · exact fun p impossible => absurd impossible List.not_mem_nil
    · rw [same]
      exact (separated_append.mp canonical).1
  have pointers : ascend (tree.load i).knownHeights = ascend tree.knownHeights ++ [tree.fresh] :=
    placed
  rw [flatten, pointers, List.map_append, List.map_singleton]
  change (ascend tree.knownHeights).map (tree.write tree.fresh i).intervals ++
    [(tree.write tree.fresh i).intervals tree.fresh] = _
  rw [kept, own, flatten]

/-- Loading ranges in order appends them to the tree and counts their heights. -/
theorem Tree.foldl_load {tree : Tree B} {more : List Interval}
    (canonical : Canonical (tree.flatten ++ more)) :
    (more.foldl Tree.load tree).flatten = tree.flatten ++ more ∧
      (more.foldl Tree.load tree).numKnownHeights = tree.numKnownHeights + total more := by
  induction more generalizing tree with
  | nil => simp [total]
  | cons i rest inductionHypothesis =>
    rw [← List.singleton_append, ← List.append_assoc] at canonical
    have loaded := flatten_load (separated_append.mp canonical).1
    rw [← loaded] at canonical
    obtain ⟨ranges, count⟩ := inductionHypothesis canonical
    rw [List.foldl_cons, ranges, count, loaded, List.append_assoc, List.singleton_append]
    refine ⟨rfl, ?_⟩
    rw [total, ← UInt64.add_assoc]
    rfl

/-- `NewTree` returns a tree with the ranges and the count of the one that is in step with the
database. -/
theorem InStep.newTree {tree : Tree B} {db : MemDb} (inStep : InStep tree db) :
    ∃ loaded : Tree B, Tree.newTree db = .ok loaded ∧ loaded.flatten = tree.flatten ∧
      loaded.len = tree.len := by
  obtain ⟨canonical, counted, mirrors⟩ := inStep
  have bare : Canonical ((Tree.empty : Tree B).flatten ++ tree.flatten) := by
    rw [Tree.flatten_empty]
    exact canonical
  obtain ⟨ranges, count⟩ := Tree.foldl_load bare
  refine ⟨tree.flatten.foldl Tree.load Tree.empty, ?_, ?_, ?_⟩
  · rw [Tree.newTree, getIntervals_of_mirrors canonical mirrors]
  · rw [ranges, Tree.flatten_empty, List.nil_append]
  · rw [Tree.len, Tree.len, count, counted]
    exact UInt64.zero_add _

end Loading

/-! ## Calls, writes and restarts -/

/-- A tree with the batch its changes go to and the database. -/
structure Session (B : Type) where
  tree : Tree B
  batch : BatchOps
  db : MemDb

/-- What can happen to a session: a height is added or removed, the batch is written and then
reset or replaced by a new one, or the node restarts and loads the tree. -/
inductive Call
  | add (height : UInt64)
  | remove (height : UInt64)
  | write
  | commit
  | restart
  deriving DecidableEq

section Sessions

variable {B : Type} [BTreeG Pointer B]

/-- Nothing stored yet. -/
def Session.initial : Session B := ⟨Tree.empty, BatchOps.new, Store.empty⟩

def Session.step (session : Session B) : Call → Session B
  | .add height =>
    let (tree, batch) := session.tree.add session.batch height
    { session with tree := tree, batch := batch }
  | .remove height =>
    let (tree, batch) := session.tree.remove session.batch height
    { session with tree := tree, batch := batch }
  | .write =>
    { session with db := session.batch.write session.db, batch := session.batch.reset }
  | .commit => { session with db := session.batch.write session.db, batch := BatchOps.new }
  | .restart =>
    match Tree.newTree session.db with
    | .ok tree => { session with tree := tree, batch := BatchOps.new }
    | .error _ => session

/-- The sets a session stands for: the heights of the tree and the heights a restart finds. -/
structure Heights where
  current : Finset UInt64
  durable : Finset UInt64

def Heights.initial : Heights := ⟨∅, ∅⟩

def Heights.step (heights : Heights) : Call → Heights
  | .add height => { heights with current := insert height heights.current }
  | .remove height => { heights with current := heights.current.erase height }
  | .write => { heights with durable := heights.current }
  | .commit => { heights with durable := heights.current }
  | .restart => { heights with current := heights.durable }

/-- The tree stands for a set of heights. -/
structure Denotes (tree : Tree B) (heights : Finset UInt64) : Prop where
  holds : ∀ height, Holds tree.flatten height ↔ height ∈ heights
  count : tree.numKnownHeights = UInt64.ofNat heights.card

/-- The session stands for its sets. -/
structure Refines (session : Session B) (heights : Heights) : Prop where
  inStep : InStep session.tree (session.batch.write session.db)
  denotes : Denotes session.tree heights.current
  stored : ∃ tree : Tree B, InStep tree session.db ∧ Denotes tree heights.durable

/-- The count of one height more. -/
theorem ofNat_add_one (n : ℕ) : UInt64.ofNat (n + 1) = UInt64.ofNat n + 1 := by
  apply UInt64.toNat_inj.mp
  rw [UInt64.toNat_add, UInt64.toNat_ofNat', UInt64.toNat_ofNat']
  exact Nat.add_mod n 1 _

/-- Adding and removing heights leaves the database as it is. -/
theorem run_db_of_unsaved (session : Session B) {unsaved : List Call}
    (changes : ∀ later ∈ unsaved, ∃ height, later = .add height ∨ later = .remove height) :
    (run Session.step session unsaved).db = session.db := by
  induction unsaved generalizing session with
  | nil => rfl
  | cons call rest inductionHypothesis =>
    rw [run_cons, inductionHypothesis _ (fun later member => changes later (by simp [member]))]
    obtain ⟨height, rfl | rfl⟩ := changes call (by simp)
    · rfl
    · rfl

variable [LawfulBTreeG Pointer B]

/-- The tree without heights is in step with the empty database. -/
theorem inStep_empty : InStep (Tree.empty : Tree B) Store.empty := by
  refine ⟨?_, ?_, ?_⟩
  · rw [Tree.flatten_empty]
    exact separated_nil
  · rw [Tree.flatten_empty]
    rfl
  · intro key value _
    simp

/-- A new session stands for empty sets. -/
theorem refines_initial : Refines (Session.initial : Session B) Heights.initial := by
  have bare : InStep (Tree.empty : Tree B) Store.empty := inStep_empty
  have nothing : Denotes (Tree.empty : Tree B) ∅ := by
    refine ⟨?_, rfl⟩
    intro height
    simp [Holds]
  exact ⟨bare, nothing, Tree.empty, bare, nothing⟩

/-- Every call keeps the session and its sets in step. -/
theorem Refines.step {session : Session B} {heights : Heights} (refines : Refines session heights)
    (call : Call) : Refines (session.step call) (heights.step call) := by
  obtain ⟨inStep, denotes, stored⟩ := refines
  cases call with
  | add height =>
    by_cases held : Holds session.tree.flatten height
    · have present := (denotes.holds height).mp held
      simp only [Session.step, Heights.step, Tree.add_of_holds inStep.canonical _ held,
        Finset.insert_eq_of_mem present]
      exact ⟨inStep, denotes, stored⟩
    · obtain ⟨after, covers, count, _⟩ := inStep.add held
      have absent := mt (denotes.holds height).mpr held
      refine ⟨after, ⟨?_, ?_⟩, stored⟩
      · intro other
        refine (covers _).trans ?_
        rw [UInt64.toNat_inj]
        exact (or_congr_right (denotes.holds other)).trans Finset.mem_insert.symm
      · refine count.trans ?_
        rw [denotes.count, Heights.step, Finset.card_insert_of_notMem absent, ofNat_add_one]
  | remove height =>
    by_cases held : Holds session.tree.flatten height
    · obtain ⟨after, covers, count, _⟩ := inStep.remove held
      have present := (denotes.holds height).mp held
      refine ⟨after, ⟨?_, ?_⟩, stored⟩
      · intro other
        refine (covers _).trans ?_
        rw [ne_eq, UInt64.toNat_inj]
        exact (and_congr_right (fun _ => denotes.holds other)).trans Finset.mem_erase.symm
      · refine count.trans ?_
        have size := Finset.card_erase_add_one present
        rw [denotes.count, Heights.step, ← size, ofNat_add_one]
        grind
    · have absent := mt (denotes.holds height).mpr held
      simp only [Session.step, Heights.step, Tree.remove_of_not_holds inStep.canonical _ held,
        Finset.erase_eq_of_notMem absent]
      exact ⟨inStep, denotes, stored⟩
  | write =>
    refine ⟨?_, denotes, session.tree, inStep, denotes⟩
    change InStep session.tree (session.batch.reset.write (session.batch.write session.db))
    rw [BatchOps.write_reset, BatchOps.write_write]
    exact inStep
  | commit => exact ⟨inStep, denotes, session.tree, inStep, denotes⟩
  | restart =>
    obtain ⟨tree, alsoInStep, alsoDenotes⟩ := stored
    obtain ⟨loaded, loading, ranges, count⟩ := alsoInStep.newTree
    simp only [Session.step, loading]
    refine ⟨alsoInStep.congr ranges count, ⟨?_, count.trans alsoDenotes.count⟩, tree, alsoInStep,
      alsoDenotes⟩
    rw [ranges]
    exact alsoDenotes.holds

/-- Every run keeps the session and its sets in step. -/
theorem refines_run (calls : List Call) :
    Refines (run Session.step (Session.initial : Session B) calls)
      (run Heights.step Heights.initial calls) :=
  run_simulates Session.step Heights.step Refines
    (fun _ _ call refines => refines.step call) _ _ calls refines_initial

/-- An interval is determined by its bounds. -/
theorem bounds_injective : Function.Injective (fun i : Interval => (i.low, i.high)) := by
  intro first second same
  obtain ⟨low, high⟩ := (Prod.mk.injEq _ _ _ _).mp same
  obtain ⟨lowerBound, upperBound⟩ := first
  obtain ⟨otherLower, otherUpper⟩ := second
  obtain rfl : lowerBound = otherLower := UInt64.toNat_inj.mp low
  obtain rfl : upperBound = otherUpper := UInt64.toNat_inj.mp high
  rfl

/-- A set of heights has one list of separated ranges. -/
theorem Canonical.eq_of_holds_iff {first second : List Interval} (canonical : Canonical first)
    (alsoCanonical : Canonical second) (same : ∀ height, Holds first height ↔ Holds second height) :
    first = second := by
  have covered : ∀ n, Covers Interval.low Interval.high first n ↔
      Covers Interval.low Interval.high second n := by
    intro n
    by_cases inRange : n < 2 ^ 64
    · have word := same (UInt64.ofNat n)
      rwa [Holds, Holds, UInt64.toNat_ofNat_of_lt' inRange] at word
    · -- No range reaches beyond the 64-bit words.
      have beyond : ∀ ranges, ¬ Covers Interval.low Interval.high ranges n := by
        rintro ranges ⟨i, _, _, ends⟩
        have bound := i.high_lt
        omega
      exact iff_of_false (beyond first) (beyond second)
  exact bounds_injective.list_map (bounds_eq_of_covers_iff canonical alsoCanonical covered)

/-- After any calls, writes and restarts the tree answers for exactly the heights of the set, its
length is their number modulo 2⁶⁴, and its ranges are the only separated ranges that hold these
heights. -/
theorem tree_denotes_heights (calls : List Call) :
    let tree := (run Session.step (Session.initial : Session B) calls).tree
    let heights := (run Heights.step Heights.initial calls).current
    (∀ height, tree.contains height = true ↔ height ∈ heights) ∧
      tree.len = UInt64.ofNat heights.card ∧
      Canonical tree.flatten ∧
      ∀ ranges, Canonical ranges → (∀ height, Holds ranges height ↔ height ∈ heights) →
        ranges = tree.flatten := by
  intro tree heights
  obtain ⟨inStep, denotes, _⟩ := @refines_run B _ _ calls
  refine ⟨?_, denotes.count, inStep.canonical, ?_⟩
  · intro height
    rw [Tree.contains_iff inStep.canonical]
    exact denotes.holds height
  · intro ranges canonical holds
    exact canonical.eq_of_holds_iff inStep.canonical
      (fun height => (holds height).trans (denotes.holds height).symm)

/-- Whatever is added and removed after a write, loading the tree gives the tree at that write: its
ranges, its number of heights and its answers. -/
theorem restart_loads_written_tree (calls unsaved : List Call) (call : Call)
    (saves : call = .write ∨ call = .commit)
    (changes : ∀ later ∈ unsaved, ∃ height, later = .add height ∨ later = .remove height) :
    let written := (run Session.step (Session.initial : Session B) (calls ++ [call])).tree
    ∃ loaded : Tree B,
      Tree.newTree (run Session.step (Session.initial : Session B) (calls ++ call :: unsaved)).db =
        .ok loaded ∧
      loaded.flatten = written.flatten ∧ loaded.len = written.len ∧
      ∀ height, loaded.contains height = written.contains height := by
  intro written
  have inStep := (@refines_run B _ _ calls).inStep
  have database : (run Session.step (Session.initial : Session B) (calls ++ call :: unsaved)).db =
      (run Session.step (Session.initial : Session B) calls).batch.write
        (run Session.step (Session.initial : Session B) calls).db := by
    rw [← List.singleton_append, ← List.append_assoc, run_append, run_db_of_unsaved _ changes,
      run_append]
    rcases saves with rfl | rfl
    · rfl
    · rfl
  have unchanged : written = (run Session.step (Session.initial : Session B) calls).tree := by
    change (run Session.step (Session.initial : Session B) (calls ++ [call])).tree = _
    rw [run_append]
    rcases saves with rfl | rfl
    · rfl
    · rfl
  obtain ⟨loaded, loading, ranges, count⟩ := inStep.newTree
  have canonical : Canonical loaded.flatten := by
    rw [ranges]
    exact inStep.canonical
  rw [database, unchanged]
  refine ⟨loaded, loading, ranges, count, fun height => ?_⟩
  rw [Bool.eq_iff_iff, Tree.contains_iff canonical, Tree.contains_iff inStep.canonical, ranges]

end Sessions

/-- A height between two others joins them to one range, which holds the three heights. -/
theorem joined_range_denotes :
    let tree := (run Session.step (Session.initial : Session (List Pointer))
      [.add 5, .add 7, .add 6]).tree
    tree.flatten = [⟨5, 7⟩] ∧ tree.len = 3 ∧
      ∀ height, tree.contains height = true ↔
        height ∈ (run Heights.step Heights.initial [.add 5, .add 7, .add 6]).current := by
  intro tree
  have ranges : tree.flatten = [⟨5, 7⟩] := by decide +kernel
  obtain ⟨answers, count, _, _⟩ :=
    @tree_denotes_heights (List Pointer) _ _ [.add 5, .add 7, .add 6]
  exact ⟨ranges, count.trans (by decide +kernel), answers⟩

/-- The joined range is loaded again, whatever was removed from it since the write. -/
theorem restart_loads_joined_range :
    ∃ loaded : Tree (List Pointer),
      Tree.newTree (run Session.step (Session.initial : Session (List Pointer))
        [.add 5, .add 7, .add 6, .commit, .remove 6]).db = .ok loaded ∧
      loaded.flatten = [⟨5, 7⟩] ∧ loaded.len = 3 := by
  obtain ⟨loaded, loading, ranges, count, _⟩ := @restart_loads_written_tree (List Pointer) _ _
    [.add 5, .add 7, .add 6] [.remove 6] .commit (Or.inr rfl) (by simp)
  have joined : (run Session.step (Session.initial : Session (List Pointer))
      [.add 5, .add 7, .add 6, .commit]).tree.flatten = [⟨5, 7⟩] := by
    decide +kernel
  have number : (run Session.step (Session.initial : Session (List Pointer))
      [.add 5, .add 7, .add 6, .commit]).tree.len = 3 := by
    decide +kernel
  exact ⟨loaded, loading, ranges.trans joined, count.trans number⟩

end AvalancheParallel.Bootstrap.IntervalTree
