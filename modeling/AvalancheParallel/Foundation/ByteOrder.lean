import Mathlib.Data.List.Lex
import Mathlib.Order.Lattice
import Mathlib.Tactic.Ring
import AvalancheParallel.Foundation.Encoding

/-!
# The order of byte strings

Byte strings are compared from the first byte on. Strings of one length are in the
order of the numbers they denote with the most significant byte first, so fixed-width
big-endian keys sort as the numbers they encode, and decoding them recovers the number.
-/

namespace AvalancheParallel.ByteOrder

open AvalancheParallel.Encoding

/-- Bytes in the order of their values. -/
scoped instance byteLinearOrder : LinearOrder UInt8 where
  le_refl _ := UInt8.le_refl _
  le_trans _ _ _ := UInt8.le_trans
  lt_iff_le_not_ge first second := by
    rw [UInt8.lt_iff_toNat_lt, UInt8.le_iff_toNat_le, UInt8.le_iff_toNat_le]
    omega
  le_antisymm _ _ := UInt8.le_antisymm
  le_total := UInt8.le_total
  toDecidableLE := inferInstance

/-- The number that a byte string denotes, most significant byte first. -/
def number : List UInt8 → ℕ
  | [] => 0
  | byte :: rest => byte.toNat * 256 ^ rest.length + number rest

/-- A number of given length is below the power of 256. -/
theorem number_lt (bytes : List UInt8) : number bytes < 256 ^ bytes.length := by
  induction bytes with
  | nil => exact Nat.one_pos
  | cons byte rest inductionHypothesis =>
    have bound : byte.toNat < 256 := byte.toNat_lt
    have shifted : (byte.toNat + 1) * 256 ^ rest.length ≤ 256 * 256 ^ rest.length :=
      Nat.mul_le_mul_right _ bound
    rw [number, List.length_cons, Nat.pow_succ, Nat.mul_comm (256 ^ rest.length)]
    rw [Nat.add_mul] at shifted
    omega

/-- The last digits of a number in base 256, most significant first. -/
def digits : ℕ → ℕ → List UInt8
  | 0, _ => []
  | width + 1, n => UInt8.ofNat (n / 256 ^ width) :: digits width n

/-- As many digits are written as asked for. -/
@[simp] theorem length_digits (width n : ℕ) : (digits width n).length = width := by
  induction width with
  | zero => rfl
  | succ width inductionHypothesis => rw [digits, List.length_cons, inductionHypothesis]

/-- The digits denote the number, reduced to their width. -/
theorem number_digits (width n : ℕ) : number (digits width n) = n % 256 ^ width := by
  induction width with
  | zero => rw [digits, number, Nat.pow_zero, Nat.mod_one]
  | succ width inductionHypothesis =>
    have shift : n % 256 ^ (width + 1) =
        n % 256 ^ width + 256 ^ width * (n / 256 ^ width % 256) := by
      rw [Nat.pow_succ, Nat.mod_mul]
    rw [digits, number, length_digits, inductionHypothesis, UInt8.toNat_ofNat', shift,
      Nat.add_comm, Nat.mul_comm]

/-- A string is made of the last digits of every number that ends with it. -/
theorem digits_append_number (bytes : List UInt8) (above : ℕ) :
    digits bytes.length (above * 256 ^ bytes.length + number bytes) = bytes := by
  induction bytes generalizing above with
  | nil => rfl
  | cons byte rest inductionHypothesis =>
    have bound := number_lt rest
    have small : byte.toNat < 256 := byte.toNat_lt
    have split : above * 256 ^ (rest.length + 1) + (byte.toNat * 256 ^ rest.length + number rest) =
        (above * 256 + byte.toNat) * 256 ^ rest.length + number rest := by ring
    have first : ((above * 256 + byte.toNat) * 256 ^ rest.length + number rest) /
        256 ^ rest.length = above * 256 + byte.toNat := by
      rw [Nat.mul_comm, Nat.mul_add_div (Nat.pow_pos (by decide)), Nat.div_eq_of_lt bound,
        Nat.add_zero]
    rw [List.length_cons, digits, number, split, first, inductionHypothesis]
    congr 1
    apply UInt8.toNat_inj.mp
    rw [UInt8.toNat_ofNat']
    omega

/-- The digits of the number that bytes denote are the bytes. -/
theorem digits_number (bytes : List UInt8) : digits bytes.length (number bytes) = bytes := by
  have whole := digits_append_number bytes 0
  rwa [Nat.zero_mul, Nat.zero_add] at whole

/-- Leading digits decide a comparison, and equal ones leave it to the rest. -/
theorem lead_lt_iff {scale first second low high : ℕ} (lowBound : low < scale)
    (highBound : high < scale) :
    first * scale + low < second * scale + high ↔
      first < second ∨ first = second ∧ low < high := by
  rcases Nat.lt_trichotomy first second with below | rfl | above
  · have room : (first + 1) * scale ≤ second * scale := Nat.mul_le_mul_right _ below
    rw [Nat.add_mul] at room
    omega
  · omega
  · have room : (second + 1) * scale ≤ first * scale := Nat.mul_le_mul_right _ above
    rw [Nat.add_mul] at room
    omega

/-- Byte strings of one length sort as the numbers they denote. -/
theorem lt_iff_number_lt {first second : List UInt8} (width : first.length = second.length) :
    first < second ↔ number first < number second := by
  induction first generalizing second with
  | nil =>
    rw [List.length_nil] at width
    rw [List.length_eq_zero_iff.mp width.symm]
    exact iff_of_false (lt_irrefl _) (Nat.lt_irrefl _)
  | cons byte rest inductionHypothesis =>
    cases second with
    | nil => simp at width
    | cons other others =>
      have tails : rest.length = others.length := Nat.succ.inj width
      have bound := number_lt rest
      rw [tails] at bound
      rw [List.cons_lt_cons_iff, inductionHypothesis tails, number, number, tails,
        lead_lt_iff bound (number_lt others), UInt8.lt_iff_toNat_lt, UInt8.toNat_inj]

/-- The eight bytes of a word denote it. -/
theorem number_bigEndian64 (value : UInt64) : number (bigEndian64 value) = value.toNat := by
  rw [toNat_eq_bytes value]
  simp only [bigEndian64, number, List.length_cons, List.length_nil, Nat.zero_add]
  omega

/-- Big-endian keys sort as the words they encode. -/
theorem bigEndian64_lt_iff (first second : UInt64) :
    bigEndian64 first < bigEndian64 second ↔ first < second := by
  have width : (bigEndian64 first).length = (bigEndian64 second).length := rfl
  rw [lt_iff_number_lt width, number_bigEndian64, number_bigEndian64, UInt64.lt_iff_toNat_lt]

/-- The word read from big-endian bytes. -/
def readBigEndian64 (bytes : List UInt8) : UInt64 := UInt64.ofNat (number bytes)

/-- A 64-bit number is read back. -/
@[simp] theorem readBigEndian64_bigEndian64 (value : UInt64) :
    readBigEndian64 (bigEndian64 value) = value := by
  rw [readBigEndian64, number_bigEndian64, UInt64.ofNat_toNat]

/-- A common front leaves the order to what follows. -/
theorem append_lt_append_iff (front first second : List UInt8) :
    front ++ first < front ++ second ↔ first < second := by
  induction front with
  | nil => exact Iff.rfl
  | cons byte rest inductionHypothesis =>
    rw [List.cons_append, List.cons_append, List.cons_lt_cons_iff, inductionHypothesis]
    simp

end AvalancheParallel.ByteOrder
