/-
# `Text` — sequences of UTF-16 code units, read by symbol

Patterns and inputs are sequences of 16-bit code units, and nothing says that
their surrogates come in pairs.  Every offset in the library counts units.

A *symbol* is what one reading step consumes: a surrogate pair is one symbol,
whose number lies above `0xFFFF`; every other unit, a lone surrogate included,
is a symbol with its own value.  Symbols are plain natural numbers, so that a
lone surrogate needs no type of its own.

A text is cut into symbols in three ways, each used where it is natural: the
whole sequence at once (`Text.symbols`), the symbol at an offset together with
its width (`Text.symbolAt`, `Symbol.width`), and the bare number of symbols
(`Text.symbolCount`).  Reading at an offset takes the proof that the offset is
inside the text, so there is no failing case.
-/
namespace RegexEngine

namespace Surrogate

/-- A unit that opens a surrogate pair. -/
def isHigh (u : UInt16) : Bool := 0xD800 ≤ u && u ≤ 0xDBFF

/-- A unit that closes a surrogate pair. -/
def isLow (u : UInt16) : Bool := 0xDC00 ≤ u && u ≤ 0xDFFF

/-- The symbol that a high and a low surrogate stand for together. -/
def join (high low : UInt16) : Nat :=
  0x10000 + (high.toNat - 0xD800) * 0x400 + (low.toNat - 0xDC00)

end Surrogate

namespace Symbol

/-- The line feed, the one symbol that separates lines. -/
def newline : Nat := 0x0A

/-- The largest symbol. -/
def last : Nat := 0x10FFFF

/-- The number of units a symbol occupies. -/
def width (c : Nat) : Nat := if 0xFFFF < c then 2 else 1

theorem width_pos (c : Nat) : 0 < width c := by
  unfold width; split <;> decide

/-- The units a symbol is written as: a pair above `0xFFFF`, itself below. -/
def units (c : Nat) : List UInt16 :=
  if 0xFFFF < c then
    [UInt16.ofNat (0xD800 + (c - 0x10000) / 0x400),
      UInt16.ofNat (0xDC00 + (c - 0x10000) % 0x400)]
  else [UInt16.ofNat c]

/-- The symbols of a sequence of units, taken from the front.  A high
surrogate joins the unit behind it exactly when that is a low one. -/
def ofUnits : List UInt16 → List Nat
  | [] => []
  | [u] => [u.toNat]
  | u :: v :: rest =>
      if Surrogate.isHigh u && Surrogate.isLow v then
        Surrogate.join u v :: ofUnits rest
      else u.toNat :: ofUnits (v :: rest)

/-- The number of symbols in a sequence of units: a low surrogate right behind
a high one that still waits for it is not counted. -/
def count (afterHigh : Bool) : List UInt16 → Nat
  | [] => 0
  | u :: rest =>
      if afterHigh && Surrogate.isLow u then count false rest
      else 1 + count (Surrogate.isHigh u) rest

end Symbol

/-- A sequence of UTF-16 code units, in which surrogates need not be paired. -/
structure Text where
  units : Array UInt16
deriving DecidableEq, Inhabited, Repr

namespace Text

/-- The number of units. -/
def length (x : Text) : Nat := x.units.size

/-- The text without units. -/
def empty : Text := ⟨#[]⟩

/-- One text after the other.  A high surrogate at the seam and a low one
behind it form a pair from then on. -/
def append (x y : Text) : Text := ⟨x.units ++ y.units⟩

instance : Append Text := ⟨append⟩

/-- The units from offset `i` up to, but not including, offset `j`. -/
def slice (x : Text) (i j : Nat) : Text := ⟨x.units.extract i j⟩

/-- Whether `x` begins with the units of `y`. -/
def startsWith (x y : Text) : Bool := y.units.isPrefixOf x.units

/-- The text written by a sequence of symbols. -/
def ofSymbols (cs : List Nat) : Text := ⟨(cs.flatMap Symbol.units).toArray⟩

/-- The text of a character string. -/
def ofString (s : String) : Text := ofSymbols (s.toList.map Char.toNat)

/-- All symbols, in order. -/
def symbols (x : Text) : List Nat := Symbol.ofUnits x.units.toList

/-- The number of symbols. -/
def symbolCount (x : Text) : Nat := Symbol.count false x.units.toList

/-- The symbol that starts at offset `i`.  Inside a pair this is its low half. -/
def symbolAt (x : Text) (i : Nat) (h : i < x.length) : Nat :=
  have inside : i < x.units.size := h
  let u := x.units[i]
  if Surrogate.isHigh u then
    match x.units[i + 1]? with
    | some v => if Surrogate.isLow v then Surrogate.join u v else u.toNat
    | none => u.toNat
  else u.toNat

/-- Whether the unit at offset `i` is a line feed; past the end there is none. -/
def newlineAt (x : Text) (i : Nat) : Bool :=
  match x.units[i]? with
  | some u => u.toNat == Symbol.newline
  | none => false

@[simp] theorem length_empty : empty.length = 0 := rfl

@[simp] theorem length_append (x y : Text) : (x ++ y).length = x.length + y.length :=
  Array.size_append

end Text

end RegexEngine
