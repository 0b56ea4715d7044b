import Mathlib.Data.Nat.Digits.Defs
import AvalancheParallel.Foundation.RangeLoop

/-!
# Identifiers and statuses

The fixed-size byte arrays of `ids`. They are compared by value, used as map keys and
ordered by their bytes. For concrete runs the keys are visited in the order of the numbers
their bytes denote.

What an ID names is decided at most once: the four statuses of `choices.Status`. A
decidable element starts as processing; `Accept` and `Reject` are documented to make every
later `Status` call return the corresponding decision.
-/

namespace AvalancheParallel.Choices

/-- `choices.Status`, in the order of the source's constants. -/
inductive Status where
  | unknown
  | processing
  | rejected
  | accepted
deriving DecidableEq, Repr

end AvalancheParallel.Choices

namespace AvalancheParallel.Ids

open AvalancheParallel.RangeLoop

/-- `ids.ID`: 32 bytes. -/
abbrev ID := Vector UInt8 32

/-- `ids.ShortID`: 20 bytes. -/
abbrev ShortID := Vector UInt8 20

instance ID.instLawfulBEq : LawfulBEq ID := inferInstance

/-- An ID has a first byte. -/
theorem ID.first_lt : 0 < 32 := by decide

/-- `bytes.Compare`: the lexicographic order, as a sign. -/
def bytesCompare : List UInt8 → List UInt8 → ℤ
  | [], [] => 0
  | [], _ :: _ => -1
  | _ :: _, [] => 1
  | a :: as, b :: bs => if a < b then -1 else if b < a then 1 else bytesCompare as bs

/-- Bytes compare equal to themselves. -/
@[simp] theorem bytesCompare_refl (bytes : List UInt8) : bytesCompare bytes bytes = 0 := by
  induction bytes with
  | nil => rfl
  | cons byte rest inductionHypothesis =>
    have irreflexive : ¬ byte < byte := UInt8.lt_irrefl byte
    simp only [bytesCompare, irreflexive, if_false]
    exact inductionHypothesis

/-- The order by `bytes.Compare` is transitive. -/
theorem bytesCompare_trans (first second third : List UInt8)
    (below : bytesCompare first second < 0) (above : bytesCompare second third < 0) :
    bytesCompare first third < 0 := by
  induction first generalizing second third with
  | nil =>
    cases third with
    | nil => cases second <;> simp [bytesCompare] at below above
    | cons c cs => simp [bytesCompare]
  | cons a as inductionHypothesis =>
    cases second with
    | nil => simp [bytesCompare] at below
    | cons b bs =>
      cases third with
      | nil => simp [bytesCompare] at above
      | cons c cs =>
        simp only [bytesCompare, UInt8.lt_iff_toNat_lt] at below above ⊢
        have rest := inductionHypothesis bs cs
        by_cases ab : a.toNat < b.toNat
        · have ac : a.toNat < c.toNat := by
            by_cases bc : b.toNat < c.toNat
            · omega
            · by_cases cb : c.toNat < b.toNat
              · simp [bc, cb] at above
              · omega
          simp [ac]
        · by_cases ba : b.toNat < a.toNat
          · simp [ab, ba] at below
          · simp only [ab, ba, if_false] at below
            by_cases bc : b.toNat < c.toNat
            · have ac : a.toNat < c.toNat := by omega
              simp [ac]
            · by_cases cb : c.toNat < b.toNat
              · simp [bc, cb] at above
              · simp only [bc, cb, if_false] at above
                have ac : ¬ a.toNat < c.toNat := by omega
                have ca : ¬ c.toNat < a.toNat := by omega
                simp only [ac, ca, if_false]
                exact rest below above

/-- Exchanging the arguments changes the sign. -/
theorem bytesCompare_swap (first second : List UInt8) :
    bytesCompare second first = -bytesCompare first second := by
  induction first generalizing second with
  | nil => cases second <;> rfl
  | cons a as inductionHypothesis =>
    cases second with
    | nil => rfl
    | cons b bs =>
      simp only [bytesCompare]
      by_cases below : a < b
      · simp [below, UInt8.lt_asymm below]
      · by_cases above : b < a
        · simp [below, above]
        · simp only [below, above, if_false]
          exact inductionHypothesis bs

/-- Only equal byte strings compare as equal. -/
theorem bytesCompare_eq_zero {first second : List UInt8} (same : bytesCompare first second = 0) :
    first = second := by
  induction first generalizing second with
  | nil =>
    cases second with
    | nil => rfl
    | cons b bs => cases same
  | cons a as inductionHypothesis =>
    cases second with
    | nil => cases same
    | cons b bs =>
      simp only [bytesCompare] at same
      by_cases below : a < b
      · simp [below] at same
      · by_cases above : b < a
        · simp [below, above] at same
        · simp only [below, above, if_false] at same
          rw [UInt8.le_antisymm (UInt8.not_lt.mp above) (UInt8.not_lt.mp below),
            inductionHypothesis same]

/-- `ID.Compare`. -/
def ID.compare (id other : ID) : ℤ := bytesCompare id.toList other.toList

/-- `ShortID.Compare`. -/
def ShortID.compare (id other : ShortID) : ℤ := bytesCompare id.toList other.toList

/-- The number whose base-256 digits are the bytes, least significant first. -/
def byteValue {width : ℕ} (bytes : Vector UInt8 width) : ℕ :=
  Nat.ofDigits 256 (bytes.toList.map UInt8.toNat)

/-- Different bytes of one length denote different numbers. -/
theorem byteValue_injective (width : ℕ) :
    Function.Injective (byteValue : Vector UInt8 width → ℕ) := by
  intro first second same
  have digits : first.toList.map UInt8.toNat = second.toList.map UInt8.toNat := by
    refine Nat.ofDigits_inj_of_len_eq (by decide : 1 < 256) (by simp) ?_ ?_ same
    · intro digit member
      obtain ⟨byte, _, rfl⟩ := List.mem_map.mp member
      exact byte.toNat_lt
    · intro digit member
      obtain ⟨byte, _, rfl⟩ := List.mem_map.mp member
      exact byte.toNat_lt
  have bytes : first.toList = second.toList :=
    List.map_injective_iff.mpr (fun _ _ equal => UInt8.toNat_inj.mp equal) digits
  exact Vector.toList_inj.mp bytes

/-- There are as many byte arrays as numbers with as many digits. -/
theorem card_le_pow {width : ℕ} (nodes : Finset (Vector UInt8 width)) :
    nodes.card ≤ 256 ^ width := by
  have bounded : ∀ bytes ∈ nodes, byteValue bytes ∈ Finset.range (256 ^ width) := by
    intro bytes _
    have digits := Nat.ofDigits_lt_base_pow_length (b := 256) (l := bytes.toList.map UInt8.toNat)
      (by decide) (by
        intro digit member
        obtain ⟨byte, _, rfl⟩ := List.mem_map.mp member
        exact byte.toNat_lt)
    rw [List.length_map, Vector.length_toList] at digits
    exact Finset.mem_range.mpr digits
  have injected := Finset.card_le_card_of_injOn byteValue bounded
    ((byteValue_injective width).injOn)
  rwa [Finset.card_range] at injected

/-- Visit IDs in the order of the numbers they denote. -/
def byValue (width : ℕ) : IterationOrder (Vector UInt8 width) :=
  .sortedBy byteValue (byteValue_injective width)

end AvalancheParallel.Ids
