/-
# `SymbolSet.sample?` — one symbol for a whole set

The search for a witness puts one or two sample symbols in place of every set.  A
few common symbols are preferred.  For a class that takes none of them, the first
symbol of the first range serves, or, when the class is negated, the first symbol
that it takes near the start of one of the gaps between its ranges.  Without
regard to case a symbol outside the ranges may still be refused on account of its
variants, so several symbols of a gap are tried.
-/
import RegexEngine.Symbol.Set
import RegexEngine.Text.Basic

namespace RegexEngine

namespace SymbolClass

/-- The symbols that are tried first: `a`, `A`, `0`, the space, and `_`. -/
def preferredSamples : List Nat := [0x61, 0x41, 0x30, 0x20, 0x5F]

/-- How many symbols at the start of a gap are tried. -/
def gapProbes : Nat := 64

/-- The symbols to try in the gaps from `gap` on, given the ranges in front of
which the gaps end. -/
def probesFrom (gap : Nat) : List SymbolRange → List Nat
  | [] => []
  | r :: rest =>
      List.range' gap (min r.first (gap + gapProbes) - gap) ++
        probesFrom (max gap (r.last + 1)) rest

/-- The symbols to try for a negated class: the first few outside its ranges,
behind each range and in front of the first. -/
def probes (ranges : Array SymbolRange) : List Nat :=
  probesFrom 0 (ranges.toList ++ [.single (Symbol.last + 1)])

end SymbolClass

namespace SymbolSet

/-- One symbol that the set accepts, if one was found. -/
def sample? (flags : Flags) : SymbolSet → Option Nat
  | .single c => some c
  | .any => SymbolClass.preferredSamples.head?
  | .among k =>
      let takes c := k.accepts (flags.variants c)
      match SymbolClass.preferredSamples.find? takes with
      | some c => some c
      | none =>
          if k.negated then (SymbolClass.probes k.ranges).find? takes
          else k.ranges[0]?.map (·.first)

/-- The symbols to try for a step.  Where a line feed must follow it is the only
one; otherwise it is added in multiline mode, as the next line starts behind
it. -/
def samples (flags : Flags) (newlineOnly : Bool) (s : SymbolSet) : List Nat :=
  let takesNewline := s.acceptsSymbol flags Symbol.newline
  if newlineOnly then
    if takesNewline then [Symbol.newline] else []
  else
    let sample := s.sample? flags
    sample.toList ++
      (if flags.multiline && takesNewline && sample != some Symbol.newline then [Symbol.newline]
        else [])

end SymbolSet

end RegexEngine
