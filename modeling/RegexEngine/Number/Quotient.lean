/-
# `roundDiv` — quotients rounded to the nearest integer

Rounding goes to the nearest integer, and halfway between two to the even one.
The result is within one half of the quotient (`two_mul_roundDiv_le`,
`le_two_mul_roundDiv`), and halving the quotient halves the result up to the same
half (`le_roundDiv_of_double`, `le_roundDiv_double`).
-/
namespace RegexEngine

/-- The quotient of two natural numbers, rounded to the nearest one.  Halfway
between two it is the even one. -/
def roundDiv (a b : Nat) : Nat :=
  if 2 * (a % b) < b ∨ 2 * (a % b) = b ∧ a / b % 2 = 0 then a / b else a / b + 1

/-- The rounded quotient is at most half too large. -/
theorem two_mul_roundDiv_le (a b : Nat) : 2 * (b * roundDiv a b) ≤ 2 * a + b := by
  have parts := Nat.div_add_mod a b
  unfold roundDiv
  split
  · omega
  · rw [Nat.mul_add]
    omega

/-- The rounded quotient is at most half too small. -/
theorem le_two_mul_roundDiv (a : Nat) {b : Nat} (positive : 0 < b) :
    2 * a ≤ 2 * (b * roundDiv a b) + b := by
  have parts := Nat.div_add_mod a b
  have rest := Nat.mod_lt a positive
  unfold roundDiv
  split
  · omega
  · rw [Nat.mul_add]
    omega

example : [roundDiv 4 3, roundDiv 5 3, roundDiv 3 2, roundDiv 5 2] = [1, 2, 2, 2] := by decide

/-- Rounding does not go below an integer that the quotient is not below. -/
theorem le_roundDiv {a b k : Nat} (positive : 0 < b) (h : k * b ≤ a) : k ≤ roundDiv a b := by
  have floor : k ≤ a / b := (Nat.le_div_iff_mul_le positive).mpr h
  unfold roundDiv
  split <;> omega

/-- Halving the numerator at most halves the rounded quotient. -/
theorem le_roundDiv_of_double {a b k : Nat} (positive : 0 < b)
    (h : 2 * k ≤ roundDiv (2 * a) b) : k ≤ roundDiv a b := by
  refine Nat.le_of_not_lt fun short => ?_
  have large := two_mul_roundDiv_le (2 * a) b
  have small := le_two_mul_roundDiv a positive
  have gap : b * (2 * (roundDiv a b + 1)) ≤ b * roundDiv (2 * a) b :=
    Nat.mul_le_mul_left b (by omega)
  rw [Nat.mul_left_comm, Nat.mul_add] at gap
  omega

/-- Doubling the denominator at most halves the rounded quotient. -/
theorem le_roundDiv_double {a b k : Nat} (positive : 0 < b)
    (h : 2 * k ≤ roundDiv a b) : k ≤ roundDiv a (2 * b) := by
  refine Nat.le_of_not_lt fun short => ?_
  have large := two_mul_roundDiv_le a b
  have small := le_two_mul_roundDiv a (b := 2 * b) (by omega)
  have gap : b * (2 * (roundDiv a (2 * b) + 1)) ≤ b * roundDiv a b :=
    Nat.mul_le_mul_left b (by omega)
  rw [Nat.mul_left_comm, Nat.mul_add] at gap
  rw [Nat.mul_assoc] at small
  omega

end RegexEngine
