/-
# `Regex` — regular expressions over symbols

The abstract syntax of patterns.  Concatenation and alternation are binary, so a
chain such as `a|b|c` can be nested in several ways; `Regex.factors` and
`Regex.branches` list the operands of a chain in order, whatever its nesting,
and everything built from a pattern sees the list only.
-/
import RegexEngine.Symbol.Set

namespace RegexEngine

/-- A condition on a position that consumes nothing: `^` or `$`. -/
inductive Anchor where
  | start
  | stop
deriving DecidableEq, Inhabited, Repr

/-- A suffix that repeats the expression in front of it. -/
inductive Quantifier where
  | star
  | plus
  | optional
deriving DecidableEq, Inhabited, Repr

/-- A regular expression. -/
inductive Regex where
  | empty
  | symbol (s : SymbolSet)
  | anchor (a : Anchor)
  | concat (l r : Regex)
  | alternate (l r : Regex)
  | star (r : Regex)
  | plus (r : Regex)
  | optional (r : Regex)
deriving DecidableEq, Inhabited, Repr

namespace Regex

/-- The expression that matches one given symbol. -/
def literal (c : Nat) : Regex := .symbol (.single c)

/-- Whether the expression is an anchor and nothing else. -/
def isAnchor : Regex → Bool
  | .anchor _ => true
  | _ => false

/-! ## Chains -/

/-- The factors of an expression, in front of those that follow it. -/
def factorsOnto (following : List Regex) : Regex → List Regex
  | .concat l r => l.factorsOnto (r.factorsOnto following)
  | r => r :: following

/-- The operands of the concatenation that an expression is, in order; any other
expression is its own only factor. -/
def factors (r : Regex) : List Regex := r.factorsOnto []

/-- The branches of an expression, in front of those that follow it. -/
def branchesOnto (following : List Regex) : Regex → List Regex
  | .alternate l r => l.branchesOnto (r.branchesOnto following)
  | r => r :: following

/-- The operands of the alternation that an expression is, in order; any other
expression is its own only branch. -/
def branches (r : Regex) : List Regex := r.branchesOnto []

theorem factorsOnto_eq (r : Regex) (following : List Regex) :
    r.factorsOnto following = r.factors ++ following := by
  unfold factors
  induction r generalizing following with
  | concat l r ihl ihr =>
      simp only [factorsOnto]
      rw [ihl, ihr, ihl (r.factorsOnto []), List.append_assoc]
  | _ => rfl

@[simp] theorem factors_concat (l r : Regex) :
    (concat l r).factors = l.factors ++ r.factors := by
  rw [factors, factorsOnto, factorsOnto_eq]; rfl

theorem branchesOnto_eq (r : Regex) (following : List Regex) :
    r.branchesOnto following = r.branches ++ following := by
  unfold branches
  induction r generalizing following with
  | alternate l r ihl ihr =>
      simp only [branchesOnto]
      rw [ihl, ihr, ihl (r.branchesOnto []), List.append_assoc]
  | _ => rfl

@[simp] theorem branches_alternate (l r : Regex) :
    (alternate l r).branches = l.branches ++ r.branches := by
  rw [branches, branchesOnto, branchesOnto_eq]; rfl

end Regex

/-- The expression with a quantifier behind it. -/
def Quantifier.apply : Quantifier → Regex → Regex
  | .star, r => .star r
  | .plus, r => .plus r
  | .optional, r => .optional r

end RegexEngine
