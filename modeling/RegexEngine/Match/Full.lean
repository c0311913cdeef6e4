/-
# `Automaton.accepts` — does the whole text match?

The automaton is run on all its states at once.  Between two symbols the run is a
set of states, closed under the silent transitions open at that position; a
symbol takes it to the targets of the symbol transitions that accept it.  A run
without states has failed, and a run that holds the accepting state at the end of
the text has succeeded.  The work is bounded by the product of the two sizes.
-/
import RegexEngine.Automaton.Closure
import RegexEngine.Match.Limits

namespace RegexEngine.Automaton

/-- The steps that one symbol costs a run in the given states. -/
def stepCost (a : Automaton) (states : List Nat) : Nat :=
  states.foldr (fun q total => a.symbolDegree q + total) 0

/-- Run over the symbols that are left, from the closed set of states at a
position. -/
def runFrom (a : Automaton) (x : Text) (position : Nat) (states : List Nat) (meter : Meter) :
    List Nat → Except LimitError (Bool × Meter)
  | [] => .ok (states.contains a.accept, meter)
  | c :: rest =>
      match meter.charge (a.stepCost states) with
      | .error e => .error e
      | .ok charged =>
          let behind := position + Symbol.width c
          let next := a.closure x behind
            (states.flatMap (a.symbolTargets (a.flags.variants c)))
          if next.isEmpty then .ok (false, charged)
          else runFrom a x behind next charged rest

/-- Run over a whole text. -/
def run (a : Automaton) (x : Text) (meter : Meter) : Except LimitError (Bool × Meter) :=
  a.runFrom x 0 (a.closure x 0 [a.start]) meter x.symbols

/-- Whether the automaton accepts the whole text. -/
def accepts (a : Automaton) (x : Text) (limits : Limits) : Except LimitError Bool :=
  match Meter.start limits x with
  | .error e => .error e
  | .ok meter => (a.run x meter).map (·.1)

end RegexEngine.Automaton
