/-
# `Decimal` — decimal fractions and how they are written

A `Decimal` is an integer over a power of ten, the form in which a number is read
and written.  It can be rounded to fewer digits, up or down (`Decimal.roundings`).

The written form drops the zeros at the end of the digits and is laid out in one of
two ways: positional while the point stands less than six places left of the
first digit and no more than twenty-one places right of it, scientific beyond.
-/
import RegexEngine.Number.Quotient

namespace RegexEngine

/-- The number `coefficient / 10 ^ places`. -/
structure Decimal where
  coefficient : Int
  places : Nat
deriving DecidableEq, Inhabited, Repr

namespace Decimal

/-- The decimal of a natural number. -/
def ofNat (n : Nat) : Decimal := ⟨n, 0⟩

/-- The denominator. -/
def scale (d : Decimal) : Nat := Nat.pow 10 d.places

theorem scale_pos (d : Decimal) : 0 < d.scale := Nat.pow_pos (by decide)

/-- The digits of the coefficient. -/
def digits (d : Decimal) : List Char := Nat.toDigits 10 d.coefficient.natAbs

/-- The two multiples of `unit` next to a coefficient, over the same power of ten: the
nearer one first, and of two equally near ones the even multiple. -/
def roundings (d : Decimal) (unit : Nat) : List Decimal :=
  let below := d.coefficient.natAbs / unit
  let near := roundDiv d.coefficient.natAbs unit
  let far := if near = below then below + 1 else below
  [near, far].map fun k => ⟨d.coefficient.sign * (k * unit : Nat), d.places⟩

/-! ## Layout -/

/-- The point may stand fewer than this many places in front of the first digit. -/
def leadingZeros : Int := 6

/-- The point may stand this many places behind the start of the digits. -/
def positionalPlaces : Int := 21

/-- Digits without the zeros at their end. -/
def significant (digits : List Char) : List Char :=
  (digits.reverse.dropWhile (· == '0')).reverse

/-- The exponent of the scientific form, always with its sign. -/
def exponentText (e : Int) : List Char :=
  (if e < 0 then '-' else '+') :: Nat.toDigits 10 e.natAbs

/-- Lays out the number `0.d₁d₂… × 10 ^ point`, whose first and last digits are
not zero. -/
def place (digits : List Char) (point : Int) : List Char :=
  let count : Int := digits.length
  if count ≤ point ∧ point ≤ positionalPlaces then
    digits ++ List.replicate (point - count).toNat '0'
  else if 0 < point ∧ point ≤ positionalPlaces then
    digits.take point.toNat ++ '.' :: digits.drop point.toNat
  else if -leadingZeros < point ∧ point ≤ 0 then
    '0' :: '.' :: (List.replicate (-point).toNat '0' ++ digits)
  else
    match digits with
    | [] => []
    | [d] => d :: 'e' :: exponentText (point - 1)
    | d :: rest => d :: '.' :: (rest ++ 'e' :: exponentText (point - 1))

/-- The written form of a decimal. -/
def layout (d : Decimal) : String :=
  if d.coefficient = 0 then "0"
  else
    let body := place (significant d.digits) (d.digits.length - d.places)
    String.ofList (if d.coefficient < 0 then '-' :: body else body)

end Decimal

end RegexEngine
