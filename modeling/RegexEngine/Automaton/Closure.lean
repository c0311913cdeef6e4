/-
# `Automaton.closeThreads` — where a search can be without reading on

At a position of a text, a *thread* is a state together with the offset its match
started at.  Closing a list of threads adds every state that they reach through
transitions that consume nothing and are open at the position.  Seeds are closed
one after the other; a state belongs to the first seed that reaches it and takes
its offset.  Seeds in ascending order of offsets therefore give every state the
least offset that any of them can give it, and the result ascends again.

The threads are listed in the order in which they are found.  A state is found when a
transition leads to it for the first time, which is before the states behind it are
looked at: what is found last is followed first.
-/
import RegexEngine.Automaton.Basic
import RegexEngine.Automaton.Marks

namespace RegexEngine

/-- A state of a search and the offset where its match started. -/
structure Thread where
  state : Nat
  start : Nat
deriving DecidableEq, Inhabited, Repr

namespace Marks

/-- Mark the fresh ones among some numbers and put them on a stack. -/
def markOnto (m : Marks) (stack : List Nat) : List Nat → Marks × List Nat
  | [] => (m, stack)
  | q :: rest =>
      if m.isFresh q then (m.mark q).markOnto (q :: stack) rest else m.markOnto stack rest

/-- What goes onto the stack is what has been marked. -/
theorem unmarked_markOnto (m : Marks) (stack numbers : List Nat) :
    (m.markOnto stack numbers).1.unmarked + (m.markOnto stack numbers).2.length =
      m.unmarked + stack.length := by
  fun_induction markOnto m stack numbers with
  | case1 => rfl
  | case2 m stack q rest h ih =>
      have := unmarked_mark h
      simp only [List.length_cons] at ih
      omega
  | case3 m stack q rest h ih => exact ih

end Marks

namespace Automaton

/-- Follow the open silent transitions out of the states on a stack, all of them
found before, until no fresh state is left.  Gives the marks and the states found, the
last one first. -/
def explore (a : Automaton) (x : Text) (position : Nat) (marks : Marks) (found : List Nat) :
    List Nat → Marks × List Nat
  | [] => (marks, found)
  | q :: stack =>
      let next := marks.markOnto [] (a.silentTargets x position q)
      explore a x position next.1 (next.2 ++ found) (next.2 ++ stack)
termination_by stack => marks.unmarked + stack.length
decreasing_by
  have := marks.unmarked_markOnto [] (a.silentTargets x position q)
  simp only [List.length_append, List.length_cons, List.length_nil] at *
  omega

/-- Close seeds in order, given the states that earlier seeds have reached. -/
def closeFrom (a : Automaton) (x : Text) (position : Nat) (marks : Marks) :
    List Thread → List Thread
  | [] => []
  | seed :: rest =>
      if marks.isFresh seed.state then
        let reach := a.explore x position (marks.mark seed.state) [seed.state] [seed.state]
        reach.2.reverse.map (⟨·, seed.start⟩) ++ closeFrom a x position reach.1 rest
      else closeFrom a x position marks rest

/-- The threads that a list of seeds reaches at a position without consuming
anything, each state once, with the offset of the first seed that reaches it, in the
order in which they are found. -/
def closeThreads (a : Automaton) (x : Text) (position : Nat) (seeds : List Thread) :
    List Thread :=
  a.closeFrom x position (.clear a.size) seeds

/-- The states that some states reach at a position without consuming anything. -/
def closure (a : Automaton) (x : Text) (position : Nat) (states : List Nat) : List Nat :=
  (a.closeThreads x position (states.map (⟨·, 0⟩))).map (·.state)

end Automaton

end RegexEngine
