/-
# `Token` — the pieces a pattern is put together from

The second reading of a pattern turns glyphs into tokens.  Whatever matches one
symbol or tests a position is an atom already: a symbol, the point, an anchor, an
escape, a whole class.  What remains are the four signs that give a pattern its
structure: bars, parentheses and quantifiers.

A fault inside a class or at the end of the source becomes the last token, so
that a fault of the structure further left is still reported first.
-/
import RegexEngine.Pattern.Class
import RegexEngine.Regex.Basic

namespace RegexEngine

/-- A piece of a pattern. -/
inductive Token where
  | bar
  | groupOpen
  | groupClose
  | quantifier (q : Quantifier)
  | atom (r : Regex)
  | fault (e : SyntaxError)
deriving DecidableEq, Inhabited, Repr

namespace Token

/-- The token of a symbol that stands by itself and opens no class. -/
def ofSymbol (c : Nat) : Token :=
  if c = '|'.toNat then .bar
  else if c = '('.toNat then .groupOpen
  else if c = ')'.toNat then .groupClose
  else if c = '*'.toNat then .quantifier .star
  else if c = '+'.toNat then .quantifier .plus
  else if c = '?'.toNat then .quantifier .optional
  else if c = '.'.toNat then .atom (.symbol .any)
  else if c = '^'.toNat then .atom (.anchor .start)
  else if c = '$'.toNat then .atom (.anchor .stop)
  else .atom (.literal c)

/-- The tokens of a sequence of glyphs. -/
def scan (source : Text) (glyphs : List (Placed Glyph)) : List (Placed Token) :=
  match glyphs with
  | [] => []
  | g :: rest =>
      match g.item with
      | .loneBackslash =>
          [⟨g.position, .fault (.ofUnit .trailingEscape g.position)⟩]
      | .escaped c =>
          ⟨g.position, .atom (.symbol (Escape.ofSymbol c).toSet)⟩ :: scan source rest
      | .plain c =>
          if c = '['.toNat then
            match h : Pattern.readClass source g.position rest with
            | .error e => [⟨g.position, .fault e⟩]
            | .ok (k, behind) =>
                have := Pattern.length_of_readClass h
                ⟨g.position, .atom (.symbol (.among k))⟩ :: scan source behind
          else ⟨g.position, ofSymbol c⟩ :: scan source rest
termination_by glyphs.length

/-- The tokens of a pattern. -/
def ofSource (source : Text) : List (Placed Token) :=
  scan source (Glyph.scan 0 source.symbols)

end Token

end RegexEngine
