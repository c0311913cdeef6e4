/-
# `Pattern.parse` — from tokens to an expression

A pattern is an alternation of branches, a branch is a sequence of atoms, and an
atom takes at most one quantifier.  Tokens are read from left to right over a
stack of frames, one for the whole pattern and one for each group that is open.
A frame holds the branches in front of the last bar, the current branch, and the
atom that was read last and may still be quantified.

Both operators associate to the left.  Parentheses leave no trace in the
expression, so a group that holds a bare anchor is a bare anchor, and a group
that holds nothing is the empty expression.
-/
import RegexEngine.Pattern.Token

namespace RegexEngine

/-- A pattern that has been read: the source, its expression, and the flags it is
matched under. -/
structure Pattern where
  source : Text
  root : Regex
  flags : Flags
deriving DecidableEq, Inhabited, Repr

namespace Pattern

/-- An alternation that is being read: a group, or the whole pattern. -/
structure Frame where
  /-- Where the group was opened. -/
  opened : Nat
  /-- The branches in front of the last bar, and where this bar is. -/
  branches : Option (Regex × Nat)
  /-- The current branch, without the pending atom. -/
  branch : Option Regex
  /-- The last atom, while a quantifier may follow. -/
  pending : Option Regex
deriving DecidableEq, Inhabited, Repr

namespace Frame

/-- The frame of an alternation of which nothing has been read. -/
def fresh (opened : Nat) : Frame := ⟨opened, none, none, none⟩

/-- The current branch with the pending atom, if it has any. -/
def wholeBranch (f : Frame) : Option Regex :=
  match f.branch, f.pending with
  | branch, none => branch
  | none, some r => some r
  | some l, some r => some (.concat l r)

/-- All branches, when the current one is `r`. -/
def joined (f : Frame) (r : Regex) : Regex :=
  match f.branches with
  | none => r
  | some (l, _) => .alternate l r

/-- Read an atom. -/
def atom (f : Frame) (r : Regex) : Frame :=
  ⟨f.opened, f.branches, f.wholeBranch, some r⟩

/-- Read a quantifier: it takes the pending atom, which closes it to another. -/
def quantify (f : Frame) (q : Quantifier) (position : Nat) : Except SyntaxError Frame :=
  match f.pending with
  | none => .error (.ofUnit .nothingToRepeat position)
  | some r =>
      if r.isAnchor then .error (.ofUnit .repeatedAnchor position)
      else
        let quantified : Frame := ⟨f.opened, f.branches, f.branch, some (q.apply r)⟩
        .ok ⟨f.opened, f.branches, quantified.wholeBranch, none⟩

/-- Read a bar: it closes the current branch, which must not be empty. -/
def bar (f : Frame) (position : Nat) : Except SyntaxError Frame :=
  match f.wholeBranch, f.branches with
  | some r, _ => .ok ⟨f.opened, some (f.joined r, position), none, none⟩
  | none, none => .error (.ofUnit .emptyBranchBefore position)
  | none, some (_, previous) => .error (.ofUnit .emptyBranchAfter previous)

/-- The expression of a frame whose end has been reached.  Without any bar it may
be empty. -/
def finish (f : Frame) : Except SyntaxError Regex :=
  match f.wholeBranch, f.branches with
  | some r, _ => .ok (f.joined r)
  | none, none => .ok .empty
  | none, some (_, previous) => .error (.ofUnit .emptyBranchAfter previous)

end Frame

/-- How far a pattern has been read: the innermost alternation, and those around
it from the inside out. -/
structure Progress where
  current : Frame
  enclosing : List Frame
deriving DecidableEq, Inhabited, Repr

namespace Progress

/-- Nothing has been read. -/
def initial : Progress := ⟨.fresh 0, []⟩

/-- Read one token. -/
def step (p : Progress) (t : Placed Token) : Except SyntaxError Progress :=
  match t.item with
  | .atom r => .ok ⟨p.current.atom r, p.enclosing⟩
  | .quantifier q =>
      match p.current.quantify q t.position with
      | .error e => .error e
      | .ok current => .ok ⟨current, p.enclosing⟩
  | .bar =>
      match p.current.bar t.position with
      | .error e => .error e
      | .ok current => .ok ⟨current, p.enclosing⟩
  | .groupOpen =>
      if maxNesting ≤ p.enclosing.length then .error (.ofUnit .nestingLimit t.position)
      else .ok ⟨.fresh t.position, p.current :: p.enclosing⟩
  | .groupClose =>
      match p.current.finish, p.enclosing with
      | .error e, _ => .error e
      | .ok _, [] => .error (.ofUnit .unmatchedParen t.position)
      | .ok r, outer :: enclosing => .ok ⟨outer.atom r, enclosing⟩
  | .fault e => .error e

/-- Read a sequence of tokens. -/
def run (p : Progress) : List (Placed Token) → Except SyntaxError Progress
  | [] => .ok p
  | t :: rest =>
      match p.step t with
      | .error e => .error e
      | .ok next => next.run rest

/-- Reading tokens in two parts is reading them at once. -/
theorem run_append (p : Progress) (front back : List (Placed Token)) :
    p.run (front ++ back) =
      match p.run front with
      | .error e => .error e
      | .ok next => next.run back := by
  induction front generalizing p with
  | nil => rfl
  | cons t rest ih =>
      simp only [List.cons_append, run]
      cases p.step t with
      | error e => rfl
      | ok next => exact ih next

/-- The expression, once the source has ended: every group must be closed. -/
def finish (p : Progress) (source : Text) : Except SyntaxError Regex :=
  match p.current.finish, p.enclosing with
  | .error e, _ => .error e
  | .ok r, [] => .ok r
  | .ok _, _ :: _ =>
      .error ⟨.unclosedGroup, p.current.opened, source.length - p.current.opened⟩

end Progress

/-- The expression that a source denotes, or the first fault in it. -/
def parseRegex (source : Text) : Except SyntaxError Regex :=
  match Progress.initial.run (Token.ofSource source) with
  | .error e => .error e
  | .ok p => p.finish source

/-- Read a pattern to be matched under the given flags. -/
def parse (source : Text) (flags : Flags) : Except SyntaxError Pattern :=
  match parseRegex source with
  | .error e => .error e
  | .ok root => .ok ⟨source, root, flags⟩

end Pattern

end RegexEngine
