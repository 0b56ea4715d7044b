import Mathlib.Algebra.Group.Nat.Defs
import Mathlib.Data.List.Basic

/-!
# Fixed-width byte encodings

The big-endian encoding of a 64-bit word and the concatenation of records of one
width. Both determine what they encode; a sequence of fixed-width fields can
therefore be taken apart field by field, given the lengths of the fields.
-/

namespace AvalancheParallel.Encoding

universe u v
variable {α : Type u} {β : Type v}

/-- The eight bytes of a word, most significant first. -/
def bigEndian64 (value : UInt64) : List UInt8 :=
  [(value >>> 56).toUInt8, (value >>> 48).toUInt8, (value >>> 40).toUInt8,
    (value >>> 32).toUInt8, (value >>> 24).toUInt8, (value >>> 16).toUInt8,
    (value >>> 8).toUInt8, value.toUInt8]

/-- A 64-bit number has eight bytes. -/
@[simp] theorem bigEndian64_length (value : UInt64) : (bigEndian64 value).length = 8 := rfl

/-- The word read back from its bytes as numbers. -/
theorem toNat_eq_bytes (value : UInt64) :
    value.toNat = (value >>> 56).toUInt8.toNat * 2 ^ 56 + (value >>> 48).toUInt8.toNat * 2 ^ 48 +
      (value >>> 40).toUInt8.toNat * 2 ^ 40 + (value >>> 32).toUInt8.toNat * 2 ^ 32 +
      (value >>> 24).toUInt8.toNat * 2 ^ 24 + (value >>> 16).toUInt8.toNat * 2 ^ 16 +
      (value >>> 8).toUInt8.toNat * 2 ^ 8 + value.toUInt8.toNat := by
  have bound : value.toNat < 2 ^ 64 := value.toNat_lt
  simp only [UInt64.toNat_toUInt8, UInt64.toNat_shiftRight, Nat.shiftRight_eq_div_pow,
    UInt64.reduceToNat, Nat.reduceMod, Nat.reducePow]
  omega

/-- Different 64-bit numbers have different bytes. -/
theorem bigEndian64_injective : Function.Injective bigEndian64 := by
  intro first second same
  simp only [bigEndian64, List.cons.injEq, and_true] at same
  obtain ⟨b0, b1, b2, b3, b4, b5, b6, b7⟩ := same
  apply UInt64.toNat_inj.mp
  rw [toNat_eq_bytes first, toNat_eq_bytes second, b0, b1, b2, b3, b4, b5, b6, b7]

/-- Two sequences that start with fields of one length agree field by field. -/
theorem append_eq_append_iff {first second : List α} {restFirst restSecond : List α}
    (width : first.length = second.length) :
    first ++ restFirst = second ++ restSecond ↔ first = second ∧ restFirst = restSecond :=
  ⟨fun same => List.append_inj same width, fun ⟨heads, tails⟩ => by rw [heads, tails]⟩

/-- The concatenation of records of one positive width has the width of its records
times their number. -/
theorem length_flatMap_fixed (encode : α → List β) (width : ℕ)
    (fixed : ∀ record, (encode record).length = width) (records : List α) :
    (records.flatMap encode).length = records.length * width := by
  induction records with
  | nil => simp
  | cons record rest inductionHypothesis =>
    rw [List.flatMap_cons, List.length_append, fixed, inductionHypothesis, List.length_cons,
      Nat.succ_mul, Nat.add_comm]

/-- Equally many records of one width are determined by their concatenation. -/
theorem flatMap_fixed_injective (encode : α → List β) (width : ℕ)
    (fixed : ∀ record, (encode record).length = width) (injective : Function.Injective encode)
    (first second : List α) (sameLength : first.length = second.length)
    (same : first.flatMap encode = second.flatMap encode) : first = second := by
  induction first generalizing second with
  | nil => exact (List.length_eq_zero_iff.mp sameLength.symm).symm
  | cons record rest inductionHypothesis =>
    cases second with
    | nil => simp at sameLength
    | cons other others =>
      rw [List.flatMap_cons, List.flatMap_cons,
        append_eq_append_iff ((fixed record).trans (fixed other).symm)] at same
      rw [injective same.1, inductionHypothesis others (by simpa using sameLength) same.2]

end AvalancheParallel.Encoding
