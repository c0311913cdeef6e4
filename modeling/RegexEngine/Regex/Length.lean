/-
# `Regex.Length` — how many symbols a match can have

Bounds read off the expression alone: a match has at least `Regex.minLength`
symbols, and at most `Regex.maxLength?` of them when that is given.  A repetition
is unbounded unless what it repeats can only match the empty text.
-/
import RegexEngine.Regex.Basic

namespace RegexEngine.Regex

/-- The least number of symbols in a match. -/
def minLength : Regex → Nat
  | .symbol _ => 1
  | .concat l r => l.minLength + r.minLength
  | .alternate l r => min l.minLength r.minLength
  | .plus r => r.minLength
  | .empty | .anchor _ | .star _ | .optional _ => 0

/-- The greatest length of a repetition of expressions of the given one. -/
def repeatedLength? : Option Nat → Option Nat
  | some 0 => some 0
  | _ => none

/-- The greatest number of symbols in a match; none if there is no bound. -/
def maxLength? : Regex → Option Nat
  | .symbol _ => some 1
  | .concat l r =>
      match l.maxLength?, r.maxLength? with
      | some m, some n => some (m + n)
      | _, _ => none
  | .alternate l r =>
      match l.maxLength?, r.maxLength? with
      | some m, some n => some (max m n)
      | _, _ => none
  | .star r | .plus r => repeatedLength? r.maxLength?
  | .optional r => r.maxLength?
  | .empty | .anchor _ => some 0

/-- Whether matches can be arbitrarily long. -/
def isUnbounded (r : Regex) : Bool := r.maxLength?.isNone

end RegexEngine.Regex
