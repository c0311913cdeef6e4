/-
# `Number` — what a caller may give as a limit or an offset

A caller's number is a finite one, one of the two infinities, or no number at all.
It is read from a decimal, of which it keeps what 53 binary digits can hold.  Two
readings of it are used: as a ceiling on a count (`Number.exceededBy`), where "no
number" is a ceiling that nothing exceeds, and as an offset (`Number.truncate?`),
where it stands for zero.
-/
import RegexEngine.Number.Shortest

namespace RegexEngine

/-- A number as a caller gives it. -/
inductive Number where
  | notANumber
  | negativeInfinity
  | finite (v : Binary64)
  | infinity
deriving DecidableEq, Inhabited, Repr

namespace Number

/-- The number nearest to a decimal.  What is too large for a finite one is infinite. -/
def ofDecimal (d : Decimal) : Number :=
  match Binary64.ofDecimal? d with
  | some v => .finite v
  | none => if d.coefficient < 0 then .negativeInfinity else .infinity

/-- The number nearest to `n`. -/
def ofNat (n : Nat) : Number := .ofDecimal (.ofNat n)

/-- Whether the count `n` lies above the number.  Nothing lies above infinity,
and nothing compares with what is not a number. -/
def exceededBy : Number → Nat → Bool
  | .notANumber, _ => false
  | .negativeInfinity, _ => true
  | .finite v, n => v.exceededBy n
  | .infinity, _ => false

/-- The least count above the number, for a number that some count exceeds. -/
def leastAbove : Number → Nat
  | .finite v => (v.floor + 1).toNat
  | _ => 0

/-- The integer part; the infinities have none, and what is not a number counts
as zero. -/
def truncate? : Number → Option Int
  | .notANumber => some 0
  | .finite v => some v.truncate
  | .negativeInfinity => none
  | .infinity => none

/-- The offset a search starts at: the integer part, and zero for anything
negative.  Infinity is beyond every text. -/
def startOffset? : Number → Option Nat
  | .infinity => none
  | n => some (n.truncate?.getD 0).toNat

/-- The written form. -/
def layout : Number → String
  | .notANumber => "NaN"
  | .negativeInfinity => "-Infinity"
  | .finite v => v.layout
  | .infinity => "Infinity"

end Number

end RegexEngine
