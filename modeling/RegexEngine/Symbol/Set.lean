/-
# `SymbolSet` — what a single step of a pattern accepts

A pattern reads one symbol at a time, and a `SymbolSet` says which: one given
symbol, every symbol, or a class of ranges, possibly negated.  A pattern keeps
the ranges of a class as they were written; before matching they are brought
into canonical form, and a given symbol into the form it is compared in
(`SymbolSet.normalize`).

Acceptance is decided on the variants of an input symbol, so that comparison
without regard to case needs no second kind of set.  A negated class accepts
only when no variant at all lies in its ranges.
-/
import RegexEngine.Flags
import RegexEngine.Symbol.Range

namespace RegexEngine

/-- Ranges of symbols, or, when negated, the symbols outside them. -/
structure SymbolClass where
  negated : Bool
  ranges : Array SymbolRange
deriving DecidableEq, Inhabited, Repr

/-- What one step of a pattern accepts. -/
inductive SymbolSet where
  | single (c : Nat)
  | any
  | among (k : SymbolClass)
deriving DecidableEq, Inhabited, Repr

namespace SymbolClass

/-- The decimal digits of ASCII. -/
def digits : Array SymbolRange := #[⟨0x30, 0x39⟩]

/-- The letters and digits of ASCII, and the underscore. -/
def wordSymbols : Array SymbolRange :=
  #[⟨0x30, 0x39⟩, ⟨0x41, 0x5A⟩, ⟨0x5F, 0x5F⟩, ⟨0x61, 0x7A⟩]

/-- The blank symbols of ASCII: tab, line feed, vertical tab, form feed,
carriage return, and space. -/
def blanks : Array SymbolRange := #[⟨0x09, 0x0D⟩, ⟨0x20, 0x20⟩]

/-- The class that a letter names behind a backslash.  A capital letter negates
the class of the small one. -/
def shorthand? (letter : Nat) : Option SymbolClass :=
  if letter = 'd'.toNat then some ⟨false, digits⟩
  else if letter = 'D'.toNat then some ⟨true, digits⟩
  else if letter = 'w'.toNat then some ⟨false, wordSymbols⟩
  else if letter = 'W'.toNat then some ⟨true, wordSymbols⟩
  else if letter = 's'.toNat then some ⟨false, blanks⟩
  else if letter = 'S'.toNat then some ⟨true, blanks⟩
  else none

/-- Whether the class takes a symbol with the given variants; its ranges must be
canonical. -/
def accepts (k : SymbolClass) (variants : List Nat) : Bool :=
  k.negated != variants.any (SymbolRange.covers k.ranges)

end SymbolClass

namespace SymbolSet

/-- The form of a set that matching uses. -/
def normalize (flags : Flags) : SymbolSet → SymbolSet
  | .single c => .single (flags.canonical c)
  | .any => .any
  | .among k => .among ⟨k.negated, SymbolRange.normalize k.ranges⟩

/-- Whether a normalized set accepts a symbol, given the symbol's variants. -/
def accepts : SymbolSet → List Nat → Bool
  | .single c, variants => variants.contains c
  | .any, _ => true
  | .among k, variants => k.accepts variants

/-- Whether a normalized set accepts an input symbol under the flags. -/
def acceptsSymbol (s : SymbolSet) (flags : Flags) (c : Nat) : Bool :=
  s.accepts (flags.variants c)

end SymbolSet

end RegexEngine
