/-
# `Descent` — reading a pattern by recursive descent

The library reads a pattern in three passes over lists, which cannot go out of bounds.
Here the same patterns are read with a cursor, in one pass and by recursive descent, with
one reader for each phrase of the grammar:

    alternation   branch, then each `|` with the branch behind it   (`readAlternation`)
    branch        repetitions up to a `|`, a `)` or the end         (`readBranch`)
    repetition    an atom and the quantifier behind it              (`readRepetition`)
    atom          a group, a class, an escape, a sign or a symbol   (`readAtom`)

A reader can throw two things, a syntax error and a trap (`Thrown`).  It traps where it
reads a symbol behind the end, and where a loop would go round without having moved on.
Whether a symbol is there is looked up nowhere but in `Text.readAt`; a reader knows it
from the units that it has peeked at, or it does not.

Descent goes as deep as groups are nested, so it is a recursion over the nesting budget.
-/
import RegexEngine.Pattern.Parse
import RegexEngine.Proofs.Text.Cursor

namespace RegexEngine

/-- What a reader throws. -/
inductive Thrown where
  | fault (e : SyntaxError)
  | trap (t : Trap)
deriving DecidableEq, Inhabited, Repr

namespace Descent

open Pattern (maxNesting)

/-! ## Symbols and escapes -/

/-- Read the symbol under the cursor and move behind it. -/
def readSymbol (source : Text) (p : Nat) : Except Thrown (Nat × Nat) :=
  match source.readAt p with
  | .error t => .error (.trap t)
  | .ok c => .ok (c, p + Symbol.width c)

/-- Read the escape that the backslash under the cursor begins.  The unit behind it is
looked up among the letters with a meaning before the symbol there is read. -/
def readEscape (source : Text) (p : Nat) : Except Thrown (Escape × Nat) :=
  if source.length ≤ p + 1 then .error (.fault (.ofUnit .trailingEscape p))
  else
    match (source.unitAt? (p + 1)).bind controlEscape? with
    | some control => .ok (.symbol control, p + 2)
    | none =>
        match (source.unitAt? (p + 1)).bind SymbolClass.shorthand? with
        | some k => .ok (.shorthand k, p + 2)
        | none =>
            match readSymbol source (p + 1) with
            | .error e => .error e
            | .ok (c, q) => .ok (.symbol c, q)

/-! ## Classes -/

/-- Read one member of a class. -/
def readMember (source : Text) (p : Nat) : Except Thrown (ClassMember × Nat) :=
  if source.unitAt? p = some '\\'.toNat then
    match readEscape source p with
    | .error e => .error e
    | .ok (.symbol c, q) => .ok (.symbol c, q)
    | .ok (.shorthand k, q) =>
        if k.negated then .error (.fault ⟨.negatedShorthand, p, q - p⟩)
        else .ok (.shorthand k.ranges, q)
  else
    match readSymbol source p with
    | .error e => .error e
    | .ok (c, q) => .ok (.symbol c, q)

/-- Whether the unit under the cursor is a hyphen that joins two members: the last unit
of the source does not, nor does one in front of a bracket. -/
def joinsAt (source : Text) (p : Nat) : Bool :=
  source.unitAt? p == some '-'.toNat && p + 1 < source.length &&
    source.unitAt? (p + 1) != some ']'.toNat

/-- Read the end of a range from `low` on that starts at `start`. -/
def readRangeEnd (source : Text) (start low p : Nat) : Except Thrown (SymbolRange × Nat) :=
  match readMember source p with
  | .error e => .error e
  | .ok (.shorthand _, q) => .error (.fault ⟨.rangeToShorthand, start, q - start⟩)
  | .ok (.symbol high, q) =>
      if high < low then
        .error (.fault ⟨.reversedRange (source.slice start q), start, q - start⟩)
      else .ok (⟨low, high⟩, q)

/-- Read what a class lists under the cursor, a member or a range. -/
def readItem (source : Text) (p : Nat) : Except Thrown (Array SymbolRange × Nat) :=
  match readMember source p with
  | .error e => .error e
  | .ok (.shorthand ranges, q) => .ok (ranges, q)
  | .ok (.symbol low, q) =>
      if joinsAt source q then
        match readRangeEnd source p low (q + 1) with
        | .error e => .error e
        | .ok (r, stop) => .ok (#[r], stop)
      else .ok (#[.single low], q)

/-- Read on in the class that was opened at `opened`, onto the ranges read so far. -/
def readItems (source : Text) (opened : Nat) (ranges : Array SymbolRange) (first : Bool)
    (p : Nat) : Except Thrown (Array SymbolRange × Nat) :=
  if p < source.length then
    if source.unitAt? p = some ']'.toNat ∧ first = false then .ok (ranges, p + 1)
    else
      match readItem source p with
      | .error e => .error e
      | .ok (more, q) =>
          if p < q then readItems source opened (ranges ++ more) false q
          else .error (.trap (.stalled p))
  else .error (.fault ⟨.unclosedClass, opened, source.length - opened⟩)
termination_by source.length - p

/-- Read the class that the bracket under the cursor opens. -/
def readClass (source : Text) (p : Nat) : Except Thrown (SymbolClass × Nat) :=
  let negated : Bool := source.unitAt? (p + 1) == some '^'.toNat
  match readItems source p #[] true (if negated then p + 2 else p + 1) with
  | .error e => .error e
  | .ok (ranges, q) => .ok (⟨negated, ranges⟩, q)

/-! ## Alternations -/

/-- The quantifier under the cursor. -/
def quantifierAt? (source : Text) (p : Nat) : Option Quantifier :=
  if source.unitAt? p = some '*'.toNat then some .star
  else if source.unitAt? p = some '+'.toNat then some .plus
  else if source.unitAt? p = some '?'.toNat then some .optional
  else none

/-- Read an atom; `group` reads a group. -/
def readAtom (source : Text) (group : Nat → Except Thrown (Regex × Nat)) (p : Nat) :
    Except Thrown (Regex × Nat) :=
  if source.unitAt? p = some '('.toNat then group p
  else if source.unitAt? p = some '['.toNat then
    match readClass source p with
    | .error e => .error e
    | .ok (k, q) => .ok (.symbol (.among k), q)
  else if source.unitAt? p = some '.'.toNat then .ok (.symbol .any, p + 1)
  else if source.unitAt? p = some '^'.toNat then .ok (.anchor .start, p + 1)
  else if source.unitAt? p = some '$'.toNat then .ok (.anchor .stop, p + 1)
  else if source.unitAt? p = some '\\'.toNat then
    match readEscape source p with
    | .error e => .error e
    | .ok (escape, q) => .ok (.symbol escape.toSet, q)
  else
    match readSymbol source p with
    | .error e => .error e
    | .ok (c, q) => .ok (.literal c, q)

/-- Read an atom and the quantifier behind it, if there is one. -/
def readRepetition (source : Text) (group : Nat → Except Thrown (Regex × Nat)) (p : Nat) :
    Except Thrown (Regex × Nat) :=
  match quantifierAt? source p with
  | some _ => .error (.fault (.ofUnit .nothingToRepeat p))
  | none =>
      match readAtom source group p with
      | .error e => .error e
      | .ok (r, q) =>
          match quantifierAt? source q with
          | none => .ok (r, q)
          | some sign =>
              if r.isAnchor then .error (.fault (.ofUnit .repeatedAnchor q))
              else .ok (sign.apply r, q + 1)

/-- A branch with one more expression behind it. -/
def extend (branch : Option Regex) (r : Regex) : Regex :=
  match branch with
  | none => r
  | some l => .concat l r

/-- Whether a branch ends under the cursor. -/
def branchEndsAt (source : Text) (p : Nat) : Bool :=
  source.unitAt? p == none || source.unitAt? p == some '|'.toNat ||
    source.unitAt? p == some ')'.toNat

theorem lt_length_of_not_branchEndsAt {source : Text} {p : Nat}
    (h : ¬ branchEndsAt source p = true) : p < source.length := by
  refine Nat.lt_of_not_le fun hend => h ?_
  rw [branchEndsAt, Text.unitAt?_eq_none_iff.mpr hend]
  rfl

/-- Read on in a branch, onto what has been read of it. -/
def readBranch (source : Text) (group : Nat → Except Thrown (Regex × Nat))
    (branch : Option Regex) (p : Nat) : Except Thrown (Option Regex × Nat) :=
  if ends : branchEndsAt source p = true then .ok (branch, p)
  else
    match readRepetition source group p with
    | .error e => .error e
    | .ok (r, q) =>
        if p < q then
          have := lt_length_of_not_branchEndsAt ends
          readBranch source group (some (extend branch r)) q
        else .error (.trap (.stalled p))
termination_by source.length - p

/-- Read on behind a branch, with the branches read so far. -/
def readBranches (source : Text) (group : Nat → Except Thrown (Regex × Nat))
    (left : Option Regex) (p : Nat) : Except Thrown (Regex × Nat) :=
  if bar : source.unitAt? p = some '|'.toNat then
    match left with
    | none => .error (.fault (.ofUnit .emptyBranchBefore p))
    | some l =>
        match readBranch source group none (p + 1) with
        | .error e => .error e
        | .ok (none, _) => .error (.fault (.ofUnit .emptyBranchAfter p))
        | .ok (some r, q) =>
            if p < q then
              have := Text.lt_length_of_unitAt? bar
              readBranches source group (some (.alternate l r)) q
            else .error (.trap (.stalled p))
  else .ok (left.getD .empty, p)
termination_by source.length - p

/-- Read an alternation. -/
def readAlternation (source : Text) (group : Nat → Except Thrown (Regex × Nat)) (p : Nat) :
    Except Thrown (Regex × Nat) :=
  match readBranch source group none p with
  | .error e => .error e
  | .ok (left, q) => readBranches source group left q

/-- Read the group that the parenthesis under the cursor opens, with groups in it as deep
as the budget allows. -/
def readGroup (source : Text) : Nat → Nat → Except Thrown (Regex × Nat)
  | 0, p => .error (.fault (.ofUnit .nestingLimit p))
  | budget + 1, p =>
      match readAlternation source (readGroup source budget) (p + 1) with
      | .error e => .error e
      | .ok (r, q) =>
          if source.unitAt? q = some ')'.toNat then .ok (r, q + 1)
          else .error (.fault ⟨.unclosedGroup, p, source.length - p⟩)

/-! ## The whole pattern -/

/-- Read the whole source.  An alternation that ends early ends at a parenthesis. -/
def readPattern (source : Text) : Except Thrown Regex :=
  match readAlternation source (readGroup source maxNesting) 0 with
  | .error e => .error e
  | .ok (r, p) =>
      if p < source.length then .error (.fault (.ofUnit .unmatchedParen p)) else .ok r

/-- Read a pattern, and catch the syntax errors; a trap is not caught. -/
def parse (source : Text) (flags : Flags) : Except Trap (Except SyntaxError Pattern) :=
  match readPattern source with
  | .error (.trap t) => .error t
  | .error (.fault e) => .ok (.error e)
  | .ok root => .ok (.ok ⟨source, root, flags⟩)

end Descent

end RegexEngine
