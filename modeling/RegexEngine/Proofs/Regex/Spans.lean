/-
# `Regex.Spans` — the meaning of an expression in a text

An expression relates the offsets between which it matches.  The relation is defined
by recursion on the expression alone: there is no automaton in it, no order in which
alternatives are tried, and no canonical form.  Classes are taken with their ranges
as they are written (`SymbolSet.Takes`).

Offsets are offsets of the whole text, so an anchor looks at what is around the
match and not only at what is in it.
-/
import Mathlib.Logic.Relation
import RegexEngine.Automaton.Basic
import RegexEngine.Proofs.Symbol.Range
import RegexEngine.Proofs.Text.Cutting

namespace RegexEngine

/-! ## One symbol -/

namespace SymbolSet

/-- Every range of the set has a symbol. -/
def Proper : SymbolSet → Prop
  | .among k => ∀ r ∈ k.ranges.toList, r.Proper
  | _ => True

/-- The set, as it is written, takes a symbol of the text.  A single symbol is
compared in its folded form when case is disregarded.  A class takes the symbol on
account of any of the symbol's variants, and its negation on account of none. -/
def Takes (flags : Flags) : SymbolSet → Nat → Prop
  | .single d, c => if flags.caseInsensitive then Unicode.foldCase d ∈ flags.variants c else c = d
  | .any, _ => True
  | .among k, c =>
      if k.negated then ¬ ∃ v ∈ flags.variants c, SymbolRange.Holds k.ranges.toList v
      else ∃ v ∈ flags.variants c, SymbolRange.Holds k.ranges.toList v

instance : DecidablePred Proper
  | .single _ => inferInstanceAs (Decidable True)
  | .any => inferInstanceAs (Decidable True)
  | .among k => inferInstanceAs (Decidable (∀ r ∈ k.ranges.toList, r.first ≤ r.last))

/-- Normalizing a set leaves what it takes as it was. -/
theorem acceptsSymbol_normalize (s : SymbolSet) (flags : Flags) (c : Nat) :
    (s.normalize flags).acceptsSymbol flags c = true ↔ s.Takes flags c := by
  cases s with
  | single d =>
      show (flags.variants c).contains (flags.canonical d) = true ↔ _
      rw [List.contains_iff_mem]
      unfold Takes Flags.variants Flags.canonical
      split
      · exact Iff.rfl
      · rw [List.mem_singleton, eq_comm]
  | any => exact iff_of_true rfl trivial
  | among k =>
      let covered := (flags.variants c).any (SymbolRange.covers (SymbolRange.normalize k.ranges))
      have hcovered : covered = true ↔
          ∃ v ∈ flags.variants c, SymbolRange.Holds k.ranges.toList v := by
        rw [List.any_eq_true]
        exact exists_congr fun v => and_congr_right fun _ => SymbolRange.covers_normalize
      show (k.negated != covered) = true ↔ _
      rw [Takes, ← hcovered]
      cases k.negated <;> simp

end SymbolSet

/-! ## Expressions -/

namespace Regex

/-- Every range in the expression has a symbol. -/
def Proper : Regex → Prop
  | .symbol s => s.Proper
  | .concat l r | .alternate l r => l.Proper ∧ r.Proper
  | .star r | .plus r | .optional r => r.Proper
  | .empty | .anchor _ => True

instance decidableProper : DecidablePred Proper
  | .symbol s => inferInstanceAs (Decidable s.Proper)
  | .concat l r | .alternate l r =>
      have := decidableProper l
      have := decidableProper r
      inferInstanceAs (Decidable (l.Proper ∧ r.Proper))
  | .star r | .plus r | .optional r => decidableProper r
  | .empty | .anchor _ => inferInstanceAs (Decidable True)

/-- The sets in the expression, as they are written. -/
def sets : Regex → List SymbolSet
  | .symbol s => [s]
  | .concat l r | .alternate l r => l.sets ++ r.sets
  | .star r | .plus r | .optional r => r.sets
  | .empty | .anchor _ => []

theorem Proper.set {r : Regex} {s : SymbolSet} (h : r.Proper) (hs : s ∈ r.sets) : s.Proper := by
  induction r with
  | empty | anchor => exact absurd hs List.not_mem_nil
  | symbol t =>
      rw [List.mem_singleton.mp hs]
      exact h
  | concat l r ihl ihr | alternate l r ihl ihr =>
      obtain ⟨hl, hr⟩ : l.Proper ∧ r.Proper := h
      rcases List.mem_append.mp hs with hs | hs
      · exact ihl hl hs
      · exact ihr hr hs
  | star r ih | plus r ih | optional r ih => exact ih h hs

/-- The offsets between which the expression matches in a text. -/
def Spans (flags : Flags) (x : Text) : Regex → Nat → Nat → Prop
  | .empty => fun i j => i = j
  | .symbol s => fun i j => ∃ c, x.Reads i c j ∧ s.Takes flags c
  | .anchor a => fun i j => i = j ∧ a.holds x i flags = true
  | .concat l r => Relation.Comp (l.Spans flags x) (r.Spans flags x)
  | .alternate l r => fun i j => l.Spans flags x i j ∨ r.Spans flags x i j
  | .star r => Relation.ReflTransGen (r.Spans flags x)
  | .plus r => Relation.TransGen (r.Spans flags x)
  | .optional r => Relation.ReflGen (r.Spans flags x)

end Regex

end RegexEngine
