/-
# `Automaton.ofRegex` — the automaton of an expression

Every node of an expression contributes a block of consecutive states, at most
two of them its own, so the automaton is linear in the expression.  A block
occupies the numbers from `base` up to `stop`; it is entered at `base` and left
at its exit, whose outgoing transitions depend on what surrounds the block:

    node            own states               exit        out of the inner exits
    symbol, anchor  base, base + 1           base + 1    —
    empty           base                     base        —
    concat          none                     right's     left: to the right block
    star            base, base + 1           base + 1    to base and to base + 1
    plus            stop - 1                 stop - 1    to base and to stop - 1
    optional        base, stop - 1           stop - 1    to stop - 1
    alternation     base, stop - 1           stop - 1    to stop - 1

A chain of alternations shares one entry and one exit, however it is nested, so
an alternation that is itself a branch adds no state.

The transitions are written down in one pass, given the transitions out of the
block's exit.  Where a right operand begins is found from its end, which costs
its own size only.
-/
import RegexEngine.Automaton.Basic

namespace RegexEngine

namespace Regex

/-- The number of states of a block.  As a branch of an alternation, another
alternation has no states of its own. -/
def blockSize (asBranch : Bool) : Regex → Nat
  | .empty => 1
  | .symbol _ | .anchor _ => 2
  | .concat l r => l.blockSize false + r.blockSize false
  | .alternate l r => (if asBranch then 0 else 2) + l.blockSize true + r.blockSize true
  | .star r | .optional r => 2 + r.blockSize false
  | .plus r => 1 + r.blockSize false

/-- The exit of the block from `base` up to `stop`. -/
def blockExit (base stop : Nat) : Regex → Nat
  | .empty => base
  | .symbol _ | .anchor _ | .star _ => base + 1
  | .concat _ r => r.blockExit (stop - r.blockSize false) stop
  | .alternate _ _ | .plus _ | .optional _ => stop - 1

/-- Transitions into every branch of the block from `base` up to `stop`, in front
of those that follow. -/
def branchEntries (base stop : Nat) (following : List Transition) : Regex → List Transition
  | .alternate l r =>
      let middle := stop - r.blockSize true
      l.branchEntries base middle (r.branchEntries middle stop following)
  | _ => .epsilon base :: following

/-- The transitions of the states of the block from `base` up to `stop`, state by
state, in front of those of the states that follow; `out` are the transitions out
of the block's exit. -/
def block (flags : Flags) (asBranch : Bool) (base stop : Nat) (out : List Transition)
    (following : List (List Transition)) : Regex → List (List Transition)
  | .empty => out :: following
  | .symbol s => [.symbol (s.normalize flags) (base + 1)] :: out :: following
  | .anchor a => [.assert a (base + 1)] :: out :: following
  | .concat l r =>
      let middle := stop - r.blockSize false
      l.block flags false base middle [.epsilon middle]
        (r.block flags false middle stop out following)
  | .alternate l r =>
      if asBranch then
        let middle := stop - r.blockSize true
        l.block flags true base middle out (r.block flags true middle stop out following)
      else
        let exit := stop - 1
        let middle := exit - r.blockSize true
        (l.branchEntries (base + 1) middle (r.branchEntries middle exit [])) ::
          l.block flags true (base + 1) middle [.epsilon exit]
            (r.block flags true middle exit [.epsilon exit] (out :: following))
  | .star r =>
      [.epsilon (base + 2), .epsilon (base + 1)] :: out ::
        r.block flags false (base + 2) stop [.epsilon base, .epsilon (base + 1)] following
  | .plus r =>
      let exit := stop - 1
      r.block flags false base exit [.epsilon base, .epsilon exit] (out :: following)
  | .optional r =>
      let exit := stop - 1
      [.epsilon (base + 1), .epsilon exit] ::
        r.block flags false (base + 1) exit [.epsilon exit] (out :: following)

/-- A block has as many states as its size says, whatever numbers it is given. -/
theorem length_block (flags : Flags) (asBranch : Bool) (base stop : Nat) (out : List Transition)
    (following : List (List Transition)) (r : Regex) :
    (r.block flags asBranch base stop out following).length =
      r.blockSize asBranch + following.length := by
  induction r generalizing asBranch base stop out following with
  | empty | symbol | anchor => simp only [block, blockSize, List.length_cons]; omega
  | concat l r ihl ihr => simp only [block, blockSize, ihl, ihr]; omega
  | alternate l r ihl ihr =>
      cases asBranch <;>
        simp only [block, blockSize, ihl, ihr, List.length_cons, if_true, if_false,
          Bool.false_eq_true] <;> omega
  | star r ih | plus r ih | optional r ih =>
      simp only [block, blockSize, ih, List.length_cons]; omega

end Regex

namespace Automaton

/-- The automaton of an expression: its block, which nothing follows.  The exit
of the block is the accepting state. -/
def ofRegex (r : Regex) (flags : Flags) : Automaton :=
  let stop := r.blockSize false
  ⟨(r.block flags false 0 stop [] []).toArray, 0, r.blockExit 0 stop, flags⟩

@[simp] theorem size_ofRegex (r : Regex) (flags : Flags) :
    (ofRegex r flags).size = r.blockSize false := by
  simp [ofRegex, size, Regex.length_block]

end Automaton

end RegexEngine
