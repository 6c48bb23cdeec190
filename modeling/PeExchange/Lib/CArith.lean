import Mathlib.Algebra.Order.Round
import Mathlib.Data.Rat.Floor
import Mathlib.Tactic.Linarith
import Mathlib.Tactic.Positivity

/-!
# C integer conversions and `round`

Machine integers are modelled by `Int` together with the conversion that C
applies when a value is stored in an object of a given width.

- `narrow bits x`: the two's complement value left in a `bits`-bit object.
  Conversions compose with the arithmetic (`narrow_sub_narrow`,
  `narrow_add_narrow`), so a chain of in-place updates is the conversion of the
  exact sum.
- `saturate bits x`: clamping to the range, as the `strtol` family does.
- `roundHalfAway`: C's `round`, ties away from zero; on non-negative arguments
  it is rounding with halves up (`roundHalfAway_of_nonneg`).
-/

namespace CArith

/-! ## Conversions -/

/-- Conversion of `x` to a signed integer type of `bits` bits. -/
def narrow (bits : Nat) (x : Int) : Int :=
  x.bmod (2 ^ bits)

/-- Clamping of `x` to the range of a signed integer type of `bits` bits. -/
def saturate (bits : Nat) (x : Int) : Int :=
  max (-2 ^ (bits - 1)) (min x (2 ^ (bits - 1) - 1))

@[simp] theorem narrow_zero (bits : Nat) : narrow bits 0 = 0 := by
  simp [narrow]

@[simp] theorem narrow_narrow (bits : Nat) (x : Int) :
    narrow bits (narrow bits x) = narrow bits x := by
  simp [narrow]

@[simp] theorem narrow_add_narrow (bits : Nat) (x y : Int) :
    narrow bits (narrow bits x + y) = narrow bits (x + y) := by
  simp [narrow]

@[simp] theorem narrow_sub_narrow (bits : Nat) (x y : Int) :
    narrow bits (narrow bits x - y) = narrow bits (x - y) := by
  simp [narrow]

/-- A value that fits an `int` is stored unchanged. -/
theorem narrow_32_of_fits {x : Int} (h₁ : -2147483648 ≤ x) (h₂ : x ≤ 2147483647) :
    narrow 32 x = x := by
  rw [narrow, Int.bmod_def]
  omega

/-- A value that fits a `long long` is stored unchanged. -/
theorem narrow_64_of_fits {x : Int} (h₁ : -9223372036854775808 ≤ x)
    (h₂ : x ≤ 9223372036854775807) : narrow 64 x = x := by
  rw [narrow, Int.bmod_def]
  omega

/-- What an `int` holds is in the range of `int`. -/
theorem narrow_32_range (x : Int) :
    -2147483648 ≤ narrow 32 x ∧ narrow 32 x ≤ 2147483647 := by
  rw [narrow, Int.bmod_def]
  omega

/-! ## Rounding -/

/-- C's `round`: the nearest integer, ties away from zero. -/
def roundHalfAway (x : ℚ) : ℤ :=
  if 0 ≤ x then ⌊x + 1 / 2⌋ else -⌊-x + 1 / 2⌋

theorem roundHalfAway_of_nonneg {x : ℚ} (h : 0 ≤ x) : roundHalfAway x = round x := by
  rw [roundHalfAway, if_pos h, round_eq]

/-- Rounding a number between 0 and an integer stays between them. -/
theorem roundHalfAway_mem {x : ℚ} {n : ℤ} (h₀ : 0 ≤ x) (hn : x ≤ n) :
    0 ≤ roundHalfAway x ∧ roundHalfAway x ≤ n := by
  rw [roundHalfAway, if_pos h₀]
  constructor
  · exact Int.floor_nonneg.mpr (by linarith)
  · rw [← Int.lt_add_one_iff, Int.floor_lt]
    push_cast
    linarith

end CArith
