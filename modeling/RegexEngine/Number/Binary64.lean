/-
# `Binary64` — the finite numbers of a binary word

A number as a host holds it has 53 binary digits and an exponent of limited size.
Each such number has one form here: the exponent is as small as the digits allow,
down to a least one, at which small numbers lose leading digits.  Zero is one
number, without a sign.

Comparing with a count and cutting off the fraction are exact.
-/
import RegexEngine.Number.Decimal

namespace RegexEngine

/-- The number `significand * 2 ^ exponent`. -/
structure Binary64 where
  significand : Int
  exponent : Int
  significand_lt : significand.natAbs < 1 <<< 53
  exponent_ge : -1074 ≤ exponent
  exponent_le : exponent ≤ 971
  normal : exponent = -1074 ∨ 1 <<< 52 ≤ significand.natAbs
deriving DecidableEq, Repr

namespace Binary64

/-- Zero. -/
def zero : Binary64 := ⟨0, -1074, by decide, by decide, by decide, .inl rfl⟩

instance : Inhabited Binary64 := ⟨zero⟩

/-- The number of the opposite sign. -/
def neg (v : Binary64) : Binary64 where
  significand := -v.significand
  exponent := v.exponent
  significand_lt := (Int.natAbs_neg v.significand).symm ▸ v.significand_lt
  exponent_ge := v.exponent_ge
  exponent_le := v.exponent_le
  normal := (Int.natAbs_neg v.significand).symm ▸ v.normal

/-! ## As a fraction -/

/-- The numerator. -/
def numerator (v : Binary64) : Int := v.significand * (1 <<< v.exponent.toNat : Nat)

/-- The denominator. -/
def denominator (v : Binary64) : Nat := 1 <<< (-v.exponent).toNat

theorem denominator_pos (v : Binary64) : 0 < v.denominator := by
  rw [denominator, Nat.one_shiftLeft]
  exact Nat.two_pow_pos _

/-- Whether the natural number `n` is larger. -/
def exceededBy (v : Binary64) (n : Nat) : Bool :=
  decide (v.numerator < (n * v.denominator : Nat))

/-- The greatest integer that is not larger. -/
def floor (v : Binary64) : Int := v.numerator.fdiv v.denominator

/-- The integer part: the fraction is cut off, toward zero. -/
def truncate (v : Binary64) : Int := v.numerator.tdiv v.denominator

/-- A number is exceeded by a count exactly when its integer floor is. -/
theorem exceededBy_iff_floor_lt (v : Binary64) (n : Nat) :
    v.exceededBy n = true ↔ v.floor < n := by
  have hpos : (0 : Int) < v.denominator := Int.natCast_pos.mpr v.denominator_pos
  simp only [exceededBy, floor, decide_eq_true_eq,
    Int.fdiv_eq_ediv_of_nonneg _ (Int.le_of_lt hpos), Int.natCast_mul]
  rw [Int.ediv_lt_iff_lt_mul hpos]

/-- The number as a decimal.  A half is five tenths, so every power of two below one
ends after as many places as its exponent says. -/
def toDecimal (v : Binary64) : Decimal :=
  ⟨v.numerator * (Nat.pow 5 (-v.exponent).toNat : Nat), (-v.exponent).toNat⟩

end Binary64

end RegexEngine
