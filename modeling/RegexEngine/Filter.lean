/-
# `Filter` — rejecting a text without running the automaton

Three necessary conditions for a whole text to match, read off the expression: a
least length, a greatest length, and the literals that the expression begins
with.  The least length counts symbols but is compared with the number of units,
which is never smaller; the greatest length is compared with the number of
symbols.
-/
import RegexEngine.Match.Full
import RegexEngine.Pattern.Parse
import RegexEngine.Regex.Length

namespace RegexEngine

/-- Conditions on a text; one that is absent always holds. -/
structure Filter where
  minLength : Option Nat
  maxLength : Option Nat
  requiredPrefix : Option Text
deriving DecidableEq, Inhabited, Repr

namespace Regex

/-- The literals at the front of a list of factors, up to the first factor that is
something else. -/
def leadingLiterals : List Regex → List Nat
  | .symbol (.single c) :: rest => c :: leadingLiterals rest
  | _ => []

/-- The literals that every match of the whole text begins with.  A `^` in front
of them always holds, as such a match starts where the text does. -/
def requiredSymbols (r : Regex) : List Nat :=
  match r.factors with
  | .anchor .start :: rest => leadingLiterals rest
  | factors => leadingLiterals factors

end Regex

namespace Filter

/-- The filter of a pattern.  Without regard to case no text is required. -/
def ofPattern (p : Pattern) : Filter where
  minLength := if 0 < p.root.minLength then some p.root.minLength else none
  maxLength := p.root.maxLength?
  requiredPrefix :=
    if p.flags.caseInsensitive || p.root.requiredSymbols.isEmpty then none
    else some (.ofSymbols p.root.requiredSymbols)

/-- Whether a text meets the conditions. -/
def passes (f : Filter) (x : Text) : Bool :=
  f.minLength.all (· ≤ x.length) &&
    f.requiredPrefix.all x.startsWith &&
    f.maxLength.all (x.symbolCount ≤ ·)

end Filter

/-- Whether the automaton accepts the whole text, which is rejected at once if
the filter does not let it pass. -/
def Automaton.acceptsFiltered (a : Automaton) (x : Text) (filter : Filter) (limits : Limits) :
    Except LimitError Bool :=
  match Meter.start limits x with
  | .error e => .error e
  | .ok meter => if filter.passes x then (a.run x meter).map (·.1) else .ok false

end RegexEngine
