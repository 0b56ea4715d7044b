import Mathlib.Data.List.Basic

/-!
# Fields joined by a separator

Two fields joined by a separator determine the position of the separator only
when it does not occur in one of them. The general equation between two joined
pairs is stated once: either the fields agree, or the separator of one pair lies
inside a field of the other. Numbers in decimal notation contain digits only, so
they can be split off at the end of a text.
-/

namespace AvalancheParallel.SeparatedText

universe u
variable {α : Type u}

/-- The second pair is the first with its separator moved to a later one: the left field
grows by a separator and the text between the two separators. -/
def Shifted (separator : α) (left right left' right' : List α) : Prop :=
  ∃ between, left' = left ++ separator :: between ∧ right = between ++ separator :: right'

/-- Joined pairs agree when their fields do or when one is a shift of the other. -/
theorem joined_eq_iff (separator : α) (left right left' right' : List α) :
    left ++ separator :: right = left' ++ separator :: right' ↔
      (left = left' ∧ right = right') ∨ Shifted separator left right left' right' ∨
        Shifted separator left' right' left right := by
  constructor
  · intro same
    rcases List.append_eq_append_iff.mp same with ⟨middle, longer, rest⟩ | ⟨middle, longer, rest⟩
    · cases middle with
      | nil =>
        rw [List.append_nil] at longer
        exact Or.inl ⟨longer.symm, (List.cons.inj rest).2⟩
      | cons head between =>
        obtain ⟨rfl, tail⟩ := List.cons.inj rest
        exact Or.inr (Or.inl ⟨between, longer, tail⟩)
    · cases middle with
      | nil =>
        rw [List.append_nil] at longer
        exact Or.inl ⟨longer, (List.cons.inj rest).2.symm⟩
      | cons head between =>
        obtain ⟨rfl, tail⟩ := List.cons.inj rest
        exact Or.inr (Or.inr ⟨between, longer, tail⟩)
  · rintro (⟨rfl, rfl⟩ | ⟨between, rfl, rfl⟩ | ⟨between, rfl, rfl⟩)
    · rfl
    · simp
    · simp

/-- A right field without the separator can be split off. -/
theorem joined_inj_right {separator : α} {left right left' right' : List α}
    (absent : separator ∉ right) (absent' : separator ∉ right')
    (same : left ++ separator :: right = left' ++ separator :: right') :
    left = left' ∧ right = right' := by
  rcases (joined_eq_iff separator left right left' right').mp same with
    fields | ⟨between, _, rfl⟩ | ⟨between, _, rfl⟩
  · exact fields
  · exact absurd (List.mem_append_right between List.mem_cons_self) absent
  · exact absurd (List.mem_append_right between List.mem_cons_self) absent'

/-- A shift moves the separator into the left field of the other pair. -/
theorem Shifted.mem_left {separator : α} {left right left' right' : List α}
    (shifted : Shifted separator left right left' right') : separator ∈ left' := by
  obtain ⟨between, rfl, _⟩ := shifted
  exact List.mem_append_right left List.mem_cons_self

/-- A number in decimal notation as ASCII bytes, without leading zeros. -/
def decimal (value : ℕ) : List UInt8 :=
  (Nat.toDigits 10 value).map (fun digit => UInt8.ofNat digit.toNat)

/-- The code of a decimal digit lies between those of `0` and `9`. -/
theorem digit_bounds {value : ℕ} {digit : Char} (member : digit ∈ Nat.toDigits 10 value) :
    48 ≤ digit.toNat ∧ digit.toNat ≤ 57 :=
  Char.isDigit_iff_toNat.mp (Nat.isDigit_of_mem_toDigits (by decide) (by decide) member)

/-- Different numbers are written differently. -/
theorem decimal_injective : Function.Injective decimal := by
  intro first second same
  have decoded (value : ℕ) :
      (decimal value).map (fun byte => Char.ofNat byte.toNat) = Nat.toDigits 10 value := by
    rw [decimal, List.map_map]
    conv_rhs => rw [← List.map_id (Nat.toDigits 10 value)]
    apply List.map_congr_left
    intro digit member
    obtain ⟨_, above⟩ := digit_bounds member
    have small : digit.toNat % 2 ^ 8 = digit.toNat := Nat.mod_eq_of_lt (by omega)
    change Char.ofNat (UInt8.ofNat digit.toNat).toNat = digit
    rw [UInt8.toNat_ofNat', small, Char.ofNat_toNat]
  have digits : Nat.toDigits 10 first = Nat.toDigits 10 second := by
    rw [← decoded first, ← decoded second, same]
  rw [← Nat.ofDigitChars_ten_toDigits (n := first), ← Nat.ofDigitChars_ten_toDigits (n := second),
    digits]

/-- A byte below the digits does not occur in a number. -/
theorem not_mem_decimal {separator : UInt8} (below : separator < 48) (value : ℕ) :
    separator ∉ decimal value := by
  intro member
  obtain ⟨digit, listed, rfl⟩ := List.mem_map.mp member
  obtain ⟨atLeast, atMost⟩ := digit_bounds listed
  rw [UInt8.lt_iff_toNat_lt, UInt8.toNat_ofNat'] at below
  have small : digit.toNat % 2 ^ 8 = digit.toNat := Nat.mod_eq_of_lt (by omega)
  have bound : digit.toNat % 2 ^ 8 < 48 := below
  omega

end AvalancheParallel.SeparatedText
