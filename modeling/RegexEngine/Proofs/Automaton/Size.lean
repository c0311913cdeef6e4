/-
# `Automaton.stats` — how many transitions there are

The transitions of a kind are counted row by row (`Automaton.tally`).

States that are all different have together no more symbol transitions than the automaton
has, because the automaton has a row for each (`stepCost_le`).  This bounds the work of
matching.

The automaton of an expression has a number of transitions that the nodes of the
expression add up to (`stats_ofRegex`).  All kinds of transitions are counted in one
induction (`Regex.tally_block`), in which it is left open how much a transition counts.
The transitions out of a block count as often as the block has exits.
-/
import Mathlib.Algebra.Order.BigOperators.Group.Finset
import Mathlib.Tactic.Ring
import RegexEngine.Automaton.Build
import RegexEngine.Match.Full
import RegexEngine.Proofs.Regex.Census
import RegexEngine.Proofs.Regex.Spans

namespace RegexEngine

namespace Automaton

variable {a : Automaton} {kind : Transition → Bool}

/-- The number of transitions of one kind in some rows. -/
def tally (kind : Transition → Bool) (rows : List (List Transition)) : Nat :=
  rows.foldr (fun row total => row.countP kind + total) 0

theorem tally_cons (row : List Transition) (rows : List (List Transition)) :
    tally kind (row :: rows) = row.countP kind + tally kind rows :=
  rfl

/-! ## The transitions of some states -/

theorem tally_eq_sum (kind : Transition → Bool) (rows : List (List Transition)) :
    tally kind rows = ∑ q ∈ Finset.range rows.length, (rows[q]?.getD []).countP kind := by
  induction rows with
  | nil => rfl
  | cons row rows ih =>
      rw [List.length_cons, Finset.sum_range_succ', tally_cons, ih, Nat.add_comm]
      rfl

theorem symbolTransitions_eq_sum (a : Automaton) :
    a.stats.symbolTransitions = ∑ q ∈ Finset.range a.size, a.symbolDegree q := by
  have hsize : a.states.toList.length = a.size := Array.length_toList
  show tally (·.isSymbol) a.states.toList = _
  rw [tally_eq_sum, hsize]
  simp only [symbolDegree, out, Array.getElem?_toList]

/-- A number that names no state has no transitions. -/
theorem symbolDegree_eq_zero {q : Nat} (h : a.size ≤ q) : a.symbolDegree q = 0 := by
  have hq : a.states[q]? = none := Array.getElem?_eq_none h
  rw [symbolDegree, out, hq]
  rfl

/-- One symbol costs a run in different states no more steps than the automaton has
symbol transitions. -/
theorem stepCost_le {states : List Nat} (h : states.Nodup) :
    a.stepCost states ≤ a.stats.symbolTransitions := by
  have hstates : a.stepCost states = ∑ q ∈ states.toFinset, a.symbolDegree q := by
    rw [stepCost, List.sum_toFinset _ h, List.sum_eq_foldr, List.foldr_map]
  rw [hstates, symbolTransitions_eq_sum]
  refine Finset.sum_le_sum_of_ne_zero fun q _ hq => ?_
  rw [Finset.mem_range]
  by_contra hge
  exact hq (symbolDegree_eq_zero (Nat.le_of_not_lt hge))

end Automaton

/-! ## The automaton of an expression -/

/-- How much a transition counts depends on what it consumes: nothing, nothing behind a
test, or a symbol. -/
structure Transition.CountsAs (kind : Transition → Bool) (silent testing consuming : Nat) :
    Prop where
  epsilon : ∀ t, [epsilon t].countP kind = silent
  assert : ∀ a t, [assert a t].countP kind = testing
  symbol : ∀ s t, [symbol s t].countP kind = consuming

namespace Regex

open Automaton (tally tally_cons)

/-- The number of states of a block that are left by the transitions out of it: one, or
one in each branch. -/
def exits (asBranch : Bool) : Regex → Nat
  | .alternate l r => if asBranch then l.exits true + r.exits true else 1
  | _ => 1

@[simp] theorem exits_false (r : Regex) : r.exits false = 1 := by
  cases r <;> rfl

theorem length_branches (r : Regex) : r.branches.length = r.exits true := by
  induction r with
  | alternate l r ihl ihr =>
      rw [branches_alternate, List.length_append, ihl, ihr]
      rfl
  | _ => rfl

variable {kind : Transition → Bool} {silent testing consuming : Nat}

theorem countP_branchEntries (hkind : Transition.CountsAs kind silent testing consuming)
    (base stop : Nat) (following : List Transition) (r : Regex) :
    (r.branchEntries base stop following).countP kind =
      silent * r.exits true + following.countP kind := by
  have hone : ∀ base (following : List Transition),
      (Transition.epsilon base :: following).countP kind =
        silent * 1 + following.countP kind := by
    intro base following
    rw [← List.singleton_append, List.countP_append, hkind.epsilon, Nat.mul_one]
  induction r generalizing base stop following with
  | alternate l r ihl ihr =>
      rw [branchEntries, ihl, ihr, exits, if_pos rfl, Nat.mul_add, Nat.add_assoc]
  | _ => exact hone base following

/-- The transitions of a block are those of its symbols and anchors, its wires, and those
out of its exits. -/
theorem tally_block (hkind : Transition.CountsAs kind silent testing consuming) (flags : Flags)
    (asBranch : Bool) (base stop : Nat) (out : List Transition)
    (following : List (List Transition)) (r : Regex) :
    tally kind (r.block flags asBranch base stop out following) =
      consuming * r.kinds.count .symbol + testing * r.kinds.count .anchor +
        silent * r.wires asBranch + out.countP kind * r.exits asBranch + tally kind following := by
  have htwo : ∀ p q, [Transition.epsilon p, .epsilon q].countP kind = silent + silent := by
    intro p q
    rw [← List.singleton_append, List.countP_append, hkind.epsilon, hkind.epsilon]
  induction r generalizing asBranch base stop out following with
  | empty =>
      rw [block, tally_cons]
      simp [kinds, wires, exits]
  | symbol s =>
      rw [block, tally_cons, tally_cons, hkind.symbol]
      simp [kinds, wires, exits, Nat.add_assoc]
  | anchor anchor =>
      rw [block, tally_cons, tally_cons, hkind.assert]
      simp [kinds, wires, exits, Nat.add_assoc]
  | concat l r ihl ihr =>
      rw [block, ihl, ihr, hkind.epsilon]
      simp only [kinds, wires, exits, exits_false, List.count_cons_of_ne, List.count_append, ne_eq,
        reduceCtorEq, not_false_eq_true]
      ring
  | alternate l r ihl ihr =>
      cases asBranch with
      | true =>
          rw [block, if_pos rfl, ihl, ihr]
          simp only [kinds, wires, exits, List.count_cons_of_ne, List.count_append, ne_eq,
            reduceCtorEq, not_false_eq_true, if_true]
          ring
      | false =>
          rw [block, if_neg Bool.false_ne_true, tally_cons, countP_branchEntries hkind,
            countP_branchEntries hkind, ihl, ihr, hkind.epsilon, tally_cons]
          simp only [kinds, wires, exits, length_branches, List.count_cons_of_ne,
            List.count_append, List.countP_nil, ne_eq, reduceCtorEq, not_false_eq_true, if_true,
            Bool.false_eq_true, if_false]
          ring
  | star r ih =>
      rw [block, tally_cons, tally_cons, ih, htwo, htwo]
      simp only [kinds, wires, exits, exits_false, List.count_cons_of_ne, ne_eq, reduceCtorEq,
        not_false_eq_true]
      ring
  | plus r ih =>
      rw [block, ih, tally_cons, htwo]
      simp only [kinds, wires, exits, exits_false, List.count_cons_of_ne, ne_eq, reduceCtorEq,
        not_false_eq_true]
      ring
  | optional r ih =>
      rw [block, tally_cons, ih, tally_cons, htwo, hkind.epsilon]
      simp only [kinds, wires, exits, exits_false, List.count_cons_of_ne, ne_eq, reduceCtorEq,
        not_false_eq_true]
      ring

theorem length_sets (r : Regex) : r.sets.length = r.kinds.count .symbol := by
  induction r with
  | empty | symbol | anchor => rfl
  | concat l r ihl ihr | alternate l r ihl ihr => simp [sets, kinds, ihl, ihr]
  | star r ih | plus r ih | optional r ih => simp [sets, kinds, ih]

end Regex

namespace Automaton

variable {silent testing consuming : Nat} (r : Regex) (flags : Flags)

/-- The transitions of the automaton of an expression. -/
theorem countTransitions_ofRegex
    (hkind : Transition.CountsAs kind silent testing consuming) :
    (ofRegex r flags).countTransitions kind =
      consuming * r.kinds.count .symbol + testing * r.kinds.count .anchor +
        silent * r.wires false := by
  show tally kind (r.block flags false 0 (r.blockSize false) [] []).toArray.toList = _
  rw [List.toList_toArray, Regex.tally_block hkind, List.countP_nil, Nat.zero_mul]
  rfl

/-- The states and transitions of the automaton of an expression. -/
theorem stats_ofRegex : (ofRegex r flags).stats =
    { states := r.blockSize false
      symbolTransitions := r.kinds.count .symbol
      epsilonTransitions := r.wires false
      assertTransitions := r.kinds.count .anchor } := by
  have hsymbol : Transition.CountsAs (·.isSymbol) 0 0 1 :=
    ⟨fun _ => rfl, fun _ _ => rfl, fun _ _ => rfl⟩
  have hepsilon : Transition.CountsAs (·.isEpsilon) 1 0 0 :=
    ⟨fun _ => rfl, fun _ _ => rfl, fun _ _ => rfl⟩
  have hassert : Transition.CountsAs (·.isAssert) 0 1 0 :=
    ⟨fun _ => rfl, fun _ _ => rfl, fun _ _ => rfl⟩
  rw [stats, size_ofRegex, countTransitions_ofRegex r flags hsymbol,
    countTransitions_ofRegex r flags hepsilon, countTransitions_ofRegex r flags hassert]
  simp only [Nat.one_mul, Nat.zero_mul, Nat.add_zero, Nat.zero_add]

theorem symbolTransitions_ofRegex :
    (ofRegex r flags).stats.symbolTransitions = r.sets.length := by
  rw [stats_ofRegex, r.length_sets]

end Automaton

end RegexEngine
