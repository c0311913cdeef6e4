/-
# `Binary64.shortest` — the fewest digits that name a number

A number is written with the fewest digits that read back to it.  With that many
digits left, the nearer of its two neighbours is taken if it reads back, and the
farther one if only that does: below a power of two the numbers lie closer than
above it, so the two sides differ.  All the digits of the number itself would do
as well.
-/
import RegexEngine.Number.Rounding

namespace RegexEngine

namespace Binary64

/-- The decimal with the fewest digits that is read as this number. -/
def shortest (v : Binary64) : Decimal :=
  let exact := v.toDecimal
  let count := exact.digits.length
  let found := (List.range count).findSome? fun n =>
    (exact.roundings (Nat.pow 10 (count - (n + 1)))).find? fun d => ofDecimal? d = some v
  found.getD exact

/-- The written form. -/
def layout (v : Binary64) : String := v.shortest.layout

end Binary64

end RegexEngine
