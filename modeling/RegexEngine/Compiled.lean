/-
# `Compiled` — a pattern ready for matching

Compiling reads a pattern, builds its automaton and its filter, and fixes the
limits of every later call.  The record of a compilation, for a log, is a value
of its own (`LogEntry`).
-/
import RegexEngine.Automaton.Build
import RegexEngine.Filter
import RegexEngine.Match.Search

namespace RegexEngine

/-- A pattern with all that matching it needs. -/
structure Compiled where
  pattern : Pattern
  automaton : Automaton
  filter : Filter
  limits : Limits
deriving DecidableEq, Inhabited, Repr

/-- What a compilation reports. -/
inductive LogEntry where
  | compiled (source : Text) (stats : Automaton.Stats)
  | refused (source : Text) (error : SyntaxError)
deriving DecidableEq, Inhabited, Repr

namespace LogEntry

/-- The level that an entry is reported at. -/
def level : LogEntry → String
  | .compiled _ _ => "debug"
  | .refused _ _ => "info"

/-- The wording of an entry. -/
def message : LogEntry → String
  | .compiled _ _ => "compiled"
  | .refused _ _ => "syntax error"

end LogEntry

/-- The automaton of a pattern. -/
def Pattern.automaton (p : Pattern) : Automaton := .ofRegex p.root p.flags

/-- Prepare a pattern for matching. -/
def Pattern.compile (p : Pattern) (limits : Limits) : Compiled :=
  ⟨p, p.automaton, .ofPattern p, limits⟩

/-- Read and prepare a pattern. -/
def compile (source : Text) (flags : Flags) (limits : Limits) : Except SyntaxError Compiled :=
  (Pattern.parse source flags).map (·.compile limits)

/-- What the outcome of compiling a source is reported as. -/
def LogEntry.ofOutcome (source : Text) : Except SyntaxError Compiled → LogEntry
  | .ok p => .compiled source p.automaton.stats
  | .error e => .refused source e

namespace Compiled

/-- Whether the whole text matches. -/
def accepts (p : Compiled) (x : Text) : Except LimitError Bool :=
  p.automaton.acceptsFiltered x p.filter p.limits

/-- The leftmost longest match at or behind an offset. -/
def find (p : Compiled) (x : Text) (offset : Number) : Except LimitError (Option Span) :=
  p.automaton.find x offset p.limits

/-- All matches from left to right, none overlapping another. -/
def findAll (p : Compiled) (x : Text) : Except LimitError (List Span) :=
  p.automaton.findAll x p.limits

/-- Whether any part of the text matches. -/
def test (p : Compiled) (x : Text) : Except LimitError Bool := p.automaton.test x p.limits

end Compiled

end RegexEngine
