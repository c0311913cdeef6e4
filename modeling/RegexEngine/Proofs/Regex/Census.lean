/-
# `Regex.kinds` — an expression taken apart into its nodes

What an automaton has of states and transitions can be read off the nodes of its
expression, if it is known how many nodes there are of every kind (`Regex.kinds`).

Alternations are the one exception.  A chain of them is built as one, however it is
nested, so what counts is each chain with its branches, and not the single alternations
of it (`Regex.chains`).
-/
import Mathlib.Algebra.BigOperators.Group.List.Basic
import Mathlib.Algebra.Ring.Nat
import RegexEngine.Automaton.Build

namespace RegexEngine.Regex

/-- What a node of an expression is. -/
inductive Kind where
  | empty
  | symbol
  | anchor
  | concat
  | alternate
  | star
  | plus
  | optional
deriving DecidableEq, Inhabited, Repr

/-- The kinds of all nodes, that of each node in front of those of its operands. -/
def kinds : Regex → List Kind
  | .empty => [.empty]
  | .symbol _ => [.symbol]
  | .anchor _ => [.anchor]
  | .concat l r => .concat :: (l.kinds ++ r.kinds)
  | .alternate l r => .alternate :: (l.kinds ++ r.kinds)
  | .star r => .star :: r.kinds
  | .plus r => .plus :: r.kinds
  | .optional r => .optional :: r.kinds

/-- The longest chains of alternations in an expression, each as its branches.  An
alternation that is itself a branch only goes on with the chain around it. -/
def chains (asBranch : Bool) : Regex → List (List Regex)
  | .alternate l r =>
      (if asBranch then [] else [(alternate l r).branches]) ++ (l.chains true ++ r.chains true)
  | .concat l r => l.chains false ++ r.chains false
  | .star r | .plus r | .optional r => r.chains false
  | .empty | .symbol _ | .anchor _ => []

/-- The number of silent transitions that a block is wired with inside. -/
def wires (asBranch : Bool) : Regex → Nat
  | .empty | .symbol _ | .anchor _ => 0
  | .concat l r => l.wires false + r.wires false + 1
  | .alternate l r =>
      (if asBranch then 0 else 2 * (alternate l r).branches.length) + l.wires true + r.wires true
  | .star r => r.wires false + 4
  | .plus r => r.wires false + 2
  | .optional r => r.wires false + 3

variable (asBranch : Bool) (r : Regex)

/-- The states of a block are those of its nodes and of its chains. -/
theorem blockSize_eq : r.blockSize asBranch =
    2 * (r.kinds.count .symbol + r.kinds.count .anchor) + r.kinds.count .empty +
      2 * r.kinds.count .star + 2 * r.kinds.count .optional + r.kinds.count .plus +
      2 * (r.chains asBranch).length := by
  induction r generalizing asBranch with
  | empty | symbol | anchor => rfl
  | concat l r ihl ihr =>
      simp only [blockSize, kinds, chains, ihl, ihr, List.count_cons, List.count_append,
        List.length_append, beq_iff_eq, reduceCtorEq, if_false]
      omega
  | alternate l r ihl ihr =>
      cases asBranch <;>
        simp only [blockSize, kinds, chains, ihl, ihr, List.count_cons, List.count_append,
          List.length_append, List.length_cons, List.length_nil, beq_iff_eq, reduceCtorEq,
          if_false, if_true, Bool.false_eq_true] <;> omega
  | star r ih | plus r ih | optional r ih =>
      simp only [blockSize, kinds, chains, ih, List.count_cons, beq_iff_eq, reduceCtorEq, if_false,
        beq_self_eq_true, if_true]
      omega

/-- The silent transitions of a block are those of its nodes, and two for every branch of
its chains. -/
theorem wires_eq : r.wires asBranch =
    4 * r.kinds.count .star + 2 * r.kinds.count .plus + 3 * r.kinds.count .optional +
      r.kinds.count .concat + ((r.chains asBranch).map (2 * ·.length)).sum := by
  induction r generalizing asBranch with
  | empty | symbol | anchor => rfl
  | concat l r ihl ihr =>
      simp only [wires, kinds, chains, ihl, ihr, List.count_cons, List.count_append,
        List.map_append, List.sum_append_nat, beq_iff_eq, reduceCtorEq, if_false,
        beq_self_eq_true, if_true]
      omega
  | alternate l r ihl ihr =>
      cases asBranch <;>
        simp only [wires, kinds, chains, ihl, ihr, List.count_cons, List.count_append,
          List.map_append, List.sum_append_nat, List.map_cons, List.map_nil, List.sum_cons,
          List.sum_nil, beq_iff_eq, reduceCtorEq, if_false, if_true, Bool.false_eq_true] <;> omega
  | star r ih | plus r ih | optional r ih =>
      simp only [wires, kinds, chains, ih, List.count_cons, beq_iff_eq, reduceCtorEq, if_false,
        beq_self_eq_true, if_true]
      omega

end RegexEngine.Regex
