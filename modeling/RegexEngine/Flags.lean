/-
# `Flags` — the two switches fixed with a pattern
-/
import RegexEngine.Unicode.CaseMapping

namespace RegexEngine

/-- What a pattern's author may switch on: comparing symbols without regard to
case, and letting `^` and `$` hold next to line feeds as well. -/
structure Flags where
  caseInsensitive : Bool := false
  multiline : Bool := false
deriving DecidableEq, Inhabited, Repr

namespace Flags

/-- The forms of an input symbol that are compared with a pattern: the symbol
alone, or, without regard to case, the symbol with its case variants. -/
def variants (flags : Flags) (c : Nat) : List Nat :=
  if flags.caseInsensitive then Unicode.caseVariants c else [c]

/-- The form in which a pattern's own symbols are kept for comparison. -/
def canonical (flags : Flags) (c : Nat) : Nat :=
  if flags.caseInsensitive then Unicode.foldCase c else c

end Flags

end RegexEngine
