/-
# `Automaton` — nondeterministic automata with position tests

States are numbered from zero, and each has a list of outgoing transitions.  A
transition consumes a symbol that its set accepts, or nothing; one that consumes
nothing may be tied to an anchor, and is then open only at positions where the
anchor holds.  There is one start state and one accepting state.

The symbol sets of an automaton are normalized, as matching needs them.
-/
import RegexEngine.Regex.Basic
import RegexEngine.Text.Basic

namespace RegexEngine

/-- A transition to the state `target`. -/
inductive Transition where
  /-- Always open, consumes nothing. -/
  | epsilon (target : Nat)
  /-- Open where the anchor holds, consumes nothing. -/
  | assert (a : Anchor) (target : Nat)
  /-- Consumes one symbol of the set. -/
  | symbol (s : SymbolSet) (target : Nat)
deriving DecidableEq, Inhabited, Repr

namespace Transition

/-- The state a transition leads to. -/
def target : Transition → Nat
  | .epsilon t | .assert _ t | .symbol _ t => t

/-- Whether the transition consumes a symbol. -/
def isSymbol : Transition → Bool
  | .symbol _ _ => true
  | _ => false

/-- Whether the transition is open without condition and consumes nothing. -/
def isEpsilon : Transition → Bool
  | .epsilon _ => true
  | _ => false

/-- Whether the transition tests a position. -/
def isAssert : Transition → Bool
  | .assert _ _ => true
  | _ => false

end Transition

/-- An automaton; `states` holds the transitions out of each state, by number. -/
structure Automaton where
  states : Array (List Transition)
  start : Nat
  accept : Nat
  flags : Flags
deriving DecidableEq, Inhabited, Repr

namespace Automaton

/-- The number of states. -/
def size (a : Automaton) : Nat := a.states.size

/-- The transitions out of a state; a number that names no state has none. -/
def out (a : Automaton) (q : Nat) : List Transition := a.states[q]?.getD []

/-- Every number that the automaton mentions names one of its states. -/
structure WellFormed (a : Automaton) : Prop where
  start_lt : a.start < a.size
  accept_lt : a.accept < a.size
  target_lt : ∀ q, ∀ t ∈ a.out q, t.target < a.size

end Automaton

namespace Anchor

/-- Whether the anchor holds at a position of a text.  `^` holds at the start,
and in multiline mode behind a line feed; `$` at the end, and in multiline mode
in front of one. -/
def holds (anchor : Anchor) (x : Text) (position : Nat) (flags : Flags) : Bool :=
  match anchor with
  | .start => position == 0 || (flags.multiline && x.newlineAt (position - 1))
  | .stop => position == x.length || (flags.multiline && x.newlineAt position)

end Anchor

namespace Automaton

/-- The states that one transition reaches from `q` at a position without
consuming anything. -/
def silentTargets (a : Automaton) (x : Text) (position q : Nat) : List Nat :=
  (a.out q).filterMap fun
    | .epsilon t => some t
    | .assert anchor t => if anchor.holds x position a.flags then some t else none
    | .symbol _ _ => none

/-- The states that one transition reaches from `q` by consuming a symbol with
the given variants. -/
def symbolTargets (a : Automaton) (variants : List Nat) (q : Nat) : List Nat :=
  (a.out q).filterMap fun
    | .symbol s t => if s.accepts variants then some t else none
    | .epsilon _ | .assert _ _ => none

/-- The number of transitions out of `q` that consume a symbol. -/
def symbolDegree (a : Automaton) (q : Nat) : Nat := (a.out q).countP (·.isSymbol)

/-! ## Size -/

/-- A summary of an automaton's size. -/
structure Stats where
  states : Nat
  symbolTransitions : Nat
  epsilonTransitions : Nat
  assertTransitions : Nat
deriving DecidableEq, Inhabited, Repr

/-- The number of transitions of one kind. -/
def countTransitions (a : Automaton) (kind : Transition → Bool) : Nat :=
  a.states.toList.foldr (fun row total => row.countP kind + total) 0

/-- The numbers of states and of transitions of each kind. -/
def stats (a : Automaton) : Stats where
  states := a.size
  symbolTransitions := a.countTransitions (·.isSymbol)
  epsilonTransitions := a.countTransitions (·.isEpsilon)
  assertTransitions := a.countTransitions (·.isAssert)

end Automaton

end RegexEngine
