/-
# `SyntaxError` — why a pattern is refused

A pattern is refused at its first fault.  A `Fault` is the cause; a
`SyntaxError` adds the stretch of the source to blame.  The wording of every
fault is in one place, `Fault.reason`, and several faults share a code.
-/
import RegexEngine.Text.Basic

namespace RegexEngine

/-- The number of groups that may be open at once. -/
def Pattern.maxNesting : Nat := 500

/-- The kinds of syntax errors that a caller tells apart. -/
inductive ErrorCode where
  | unclosedGroup
  | unmatchedParen
  | unclosedClass
  | invalidRange
  | danglingQuantifier
  | emptyBranch
  | trailingEscape
  | invalidEscape
  | nestingLimit
deriving DecidableEq, Inhabited, Repr

/-- The cause of a syntax error. -/
inductive Fault where
  /-- A group is still open where the pattern ends. -/
  | unclosedGroup
  /-- A parenthesis closes a group that was never opened. -/
  | unmatchedParen
  /-- A class is still open where the pattern ends. -/
  | unclosedClass
  /-- A range of a class ends in a shorthand class. -/
  | rangeToShorthand
  /-- A range of a class runs backward; it is kept as written. -/
  | reversedRange (written : Text)
  /-- A quantifier has no expression in front of it. -/
  | nothingToRepeat
  /-- A quantifier stands behind a bare anchor. -/
  | repeatedAnchor
  /-- An alternation starts with a bar. -/
  | emptyBranchBefore
  /-- Nothing follows a bar. -/
  | emptyBranchAfter
  /-- The pattern ends in a backslash that escapes nothing. -/
  | trailingEscape
  /-- A class has a negated shorthand class as a member. -/
  | negatedShorthand
  /-- A group is nested too deep. -/
  | nestingLimit
deriving DecidableEq, Inhabited, Repr

/-- A fault and where it is: `length` units of the source from `position` on. -/
structure SyntaxError where
  fault : Fault
  position : Nat
  length : Nat
deriving DecidableEq, Inhabited, Repr

/-- The name of a kind of error. -/
def ErrorCode.name : ErrorCode → String
  | .unclosedGroup => "UNCLOSED_GROUP"
  | .unmatchedParen => "UNMATCHED_PAREN"
  | .unclosedClass => "UNCLOSED_CLASS"
  | .invalidRange => "INVALID_RANGE"
  | .danglingQuantifier => "DANGLING_QUANTIFIER"
  | .emptyBranch => "EMPTY_BRANCH"
  | .trailingEscape => "TRAILING_ESCAPE"
  | .invalidEscape => "INVALID_ESCAPE"
  | .nestingLimit => "NESTING_LIMIT"

namespace Fault

/-- The kind of error that a fault belongs to. -/
def code : Fault → ErrorCode
  | .unclosedGroup => .unclosedGroup
  | .unmatchedParen => .unmatchedParen
  | .unclosedClass => .unclosedClass
  | .rangeToShorthand | .reversedRange _ => .invalidRange
  | .nothingToRepeat | .repeatedAnchor => .danglingQuantifier
  | .emptyBranchBefore | .emptyBranchAfter => .emptyBranch
  | .trailingEscape => .trailingEscape
  | .negatedShorthand => .invalidEscape
  | .nestingLimit => .nestingLimit

/-- The wording of a fault, without its place. -/
def reason : Fault → Text
  | .unclosedGroup => .ofString "Unclosed group, expected ')'"
  | .unmatchedParen => .ofString "Unmatched ')'"
  | .unclosedClass => .ofString "Unclosed character class"
  | .rangeToShorthand => .ofString "Range cannot end in a shorthand class"
  | .reversedRange written =>
      .ofString "Invalid range [" ++ written ++ .ofString "]: start > end"
  | .nothingToRepeat => .ofString "Quantifier has nothing to repeat"
  | .repeatedAnchor => .ofString "Quantifier cannot follow an anchor"
  | .emptyBranchBefore => .ofString "Empty alternation branch before '|'"
  | .emptyBranchAfter => .ofString "Empty alternation branch after '|'"
  | .trailingEscape => .ofString "Pattern ends with a lone backslash"
  | .negatedShorthand =>
      .ofString "Negated shorthand class is not allowed inside a character class"
  | .nestingLimit =>
      .ofString ("Groups nested deeper than " ++ Pattern.maxNesting.repr ++ " levels")

end Fault

namespace SyntaxError

/-- The error of a fault that is one unit long. -/
def ofUnit (fault : Fault) (position : Nat) : SyntaxError := ⟨fault, position, 1⟩

/-- The kind of the error. -/
def code (e : SyntaxError) : ErrorCode := e.fault.code

/-- The full wording, with the place. -/
def message (e : SyntaxError) : Text :=
  e.fault.reason ++ .ofString (" at position " ++ e.position.repr)

end SyntaxError

end RegexEngine
