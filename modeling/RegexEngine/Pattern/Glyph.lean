/-
# `Glyph` — a pattern as plain and escaped symbols

The first reading of a pattern pairs every backslash with the symbol behind it.
Escapes have one meaning inside classes and outside, so the readers that follow
look at glyphs and never at a backslash again.

Each glyph keeps its position, in units of the source; the positions of a reading
tile the source without gaps.
-/
import RegexEngine.Symbol.Set
import RegexEngine.Text.Basic

namespace RegexEngine

/-- A symbol of a pattern as it is written. -/
inductive Glyph where
  /-- The symbol by itself. -/
  | plain (c : Nat)
  /-- The symbol behind a backslash. -/
  | escaped (c : Nat)
  /-- A backslash at the end of the pattern. -/
  | loneBackslash
deriving DecidableEq, Inhabited, Repr

/-- Something read from a pattern, and the offset it was read at. -/
structure Placed (α : Type) where
  position : Nat
  item : α
deriving DecidableEq, Inhabited, Repr

namespace Glyph

/-- The number of units the glyph occupies. -/
def width : Glyph → Nat
  | .plain c => Symbol.width c
  | .escaped c => 1 + Symbol.width c
  | .loneBackslash => 1

/-- The glyphs of a sequence of symbols that begins at the given offset. -/
def scan (position : Nat) : List Nat → List (Placed Glyph)
  | [] => []
  | c :: rest =>
      if c = '\\'.toNat then
        match rest with
        | [] => [⟨position, .loneBackslash⟩]
        | d :: behind =>
            ⟨position, .escaped d⟩ :: scan (position + (1 + Symbol.width d)) behind
      else ⟨position, .plain c⟩ :: scan (position + Symbol.width c) rest

end Glyph

/-- The offset right behind a placed glyph. -/
def Placed.stop (g : Placed Glyph) : Nat := g.position + g.item.width

/-- The control symbol that a letter names behind a backslash. -/
def controlEscape? (letter : Nat) : Option Nat :=
  if letter = 'n'.toNat then some 0x0A
  else if letter = 'r'.toNat then some 0x0D
  else if letter = 't'.toNat then some 0x09
  else if letter = 'f'.toNat then some 0x0C
  else if letter = 'v'.toNat then some 0x0B
  else if letter = '0'.toNat then some 0x00
  else none

/-- What a backslash makes of the symbol behind it. -/
inductive Escape where
  | symbol (c : Nat)
  | shorthand (k : SymbolClass)
deriving DecidableEq, Inhabited, Repr

namespace Escape

/-- An escaped symbol names a control symbol or a shorthand class, or it stands
for itself. -/
def ofSymbol (c : Nat) : Escape :=
  match controlEscape? c with
  | some control => .symbol control
  | none =>
      match SymbolClass.shorthand? c with
      | some k => .shorthand k
      | none => .symbol c

/-- The symbols that an escape accepts as an expression of its own. -/
def toSet : Escape → SymbolSet
  | .symbol c => .single c
  | .shorthand k => .among k

end Escape

end RegexEngine
