import Mathlib.Algebra.Group.Nat.Defs
import Mathlib.Order.Bounds.Basic
import WaveHazard.Bits.Width

/-! # Field widths are exact

The width that is computed for a number of things is the least one that tells them apart, and a
value fits into a field exactly when it is below the power of two of the field's width. The largest
word is the one exception. To ask for the width of its field is to count one more thing than a word
can, so whether it fits is never answered, although it fits into a field of 64 bits.
-/

namespace WaveHazard.Bits

/-- The digits of a value fit a width if the value is below the power of two. -/
theorem binaryDigits_le_iff (value width : Nat) :
    binaryDigits value ≤ width ↔ value < 2 ^ width := by
  induction width generalizing value with
  | zero =>
      unfold binaryDigits
      split <;> omega
  | succ width ih =>
      unfold binaryDigits
      split
      · rename_i zero
        rw [zero]
        exact ⟨fun _ => Nat.two_pow_pos _, fun _ => Nat.zero_le _⟩
      · rw [Nat.add_le_add_iff_right, ih, Nat.pow_succ]
        omega

/-- A value needs no more bits than the width of a field it fits into. -/
theorem fieldWidth_le_iff {value width : Nat} (positive : 0 < width) :
    fieldWidth value ≤ width ↔ value < 2 ^ width := by
  unfold fieldWidth
  rw [Nat.max_le, binaryDigits_le_iff]
  exact ⟨fun both => both.1, fun small => ⟨small, positive⟩⟩

theorem fieldWidth_pos (value : Nat) : 1 ≤ fieldWidth value := Nat.le_max_right _ _

/-- The width of a field for some things is at most a given one just if that tells them apart. -/
theorem bitsNeeded_eq_ok {count : Nat} (counted : 1 ≤ count) :
    ∃ needed, bitsNeeded count = .ok needed ∧ 1 ≤ needed ∧
      ∀ width, 1 ≤ width → (needed ≤ width ↔ count ≤ 2 ^ width) := by
  refine ⟨fieldWidth (count - 1), if_neg (by omega), fieldWidth_pos _, fun width wide => ?_⟩
  rw [fieldWidth_le_iff wide]
  omega

/-- The width for any number of things is the least one that tells them apart, and no wider than a
word. Every value but the largest word fits into a field just if it is below the power of two; for
the largest word there is an overflow, and no answer. -/
theorem widths_are_exact {count value width : Nat} (counted : 1 ≤ count) (things : count < 2 ^ 64)
    (word : value < 2 ^ 64) (wide : 1 ≤ width) :
    (∃ needed ≤ 64, bitsNeeded count = .ok needed ∧
      IsLeast {enough | 1 ≤ enough ∧ count ≤ 2 ^ enough} needed) ∧
    fitsInBits value width =
      if value = 2 ^ 64 - 1 then .error .overflow else .ok (decide (value < 2 ^ width)) := by
  constructor
  · obtain ⟨needed, computed, positive, least⟩ := bitsNeeded_eq_ok counted
    refine ⟨needed, (least 64 (by decide)).mpr things.le, computed,
      ⟨positive, (least needed positive).mp le_rfl⟩, ?_⟩
    rintro other ⟨positive, enough⟩
    exact (least other positive).mpr enough
  · unfold fitsInBits
    split
    · rename_i room
      obtain ⟨needed, computed, _, least⟩ := bitsNeeded_eq_ok (Nat.succ_pos value)
      rw [if_neg (by omega), computed]
      have fits : needed ≤ width ↔ value < 2 ^ width := least width wide
      exact congrArg Except.ok (decide_eq_decide.mpr fits)
    · rw [if_pos (by omega)]

/-- Nine things take four bits, and 64 does not fit into six. -/
theorem widths_of_nine_and_of_64 :
    (∃ needed ≤ 64, bitsNeeded 9 = .ok needed ∧
      IsLeast {enough | 1 ≤ enough ∧ 9 ≤ 2 ^ enough} needed ∧ needed = 4) ∧
    fitsInBits 64 6 = .ok false := by
  obtain ⟨⟨needed, narrow, computed, least⟩, fits⟩ :=
    @widths_are_exact 9 64 6 (by decide) (by decide) (by decide) (by decide)
  have four : IsLeast {enough | 1 ≤ enough ∧ 9 ≤ 2 ^ enough} 4 := by
    refine ⟨by decide, ?_⟩
    rintro width ⟨_, enough⟩
    by_contra narrower
    have small : 2 ^ width ≤ 2 ^ 3 := Nat.pow_le_pow_right (by decide) (by omega)
    omega
  exact ⟨⟨needed, narrow, computed, least, least.unique four⟩, fits⟩

/-- The largest word is below the power of two of its own width, and is not found to fit. -/
theorem largest_word_has_no_answer :
    ¬ ∀ value width, value < 2 ^ 64 → 1 ≤ width →
      ∃ fits, fitsInBits value width = .ok fits ∧ (fits = true ↔ value < 2 ^ width) := by
  intro answers
  obtain ⟨fits, answered, _⟩ := answers (2 ^ 64 - 1) 64 (by decide) (by decide)
  have overflow : fitsInBits (2 ^ 64 - 1) 64 = .error .overflow := rfl
  cases overflow.symm.trans answered

end WaveHazard.Bits
