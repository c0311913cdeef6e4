/-
# `Pattern.Derives` — the grammar of patterns

The grammar is over whole symbols, and a derivation carries the expression it
denotes.  With `·` for the symbols of a text one after the other:

    alternation   empty, or branches
    branches      sequence, or branches `|` sequence
    sequence      repetition, or sequence · repetition
    repetition    atom, or atom · sign, where sign is one of `*`, `+`, `?`
                  and the atom is no bare anchor
    atom          `.`, `^`, `$`, `(` alternation `)`, `[` class, `\` symbol,
                  or a symbol that is no sign

Branches and sequences are left-nested.  A group leaves no node, so whether an atom
is a bare anchor is a question about its expression.  Groups are nested as deep as
the budget says that every phrase comes with.

Inside a class the grammar looks ahead by two symbols: a hyphen joins the member in
front of it to the one behind, unless the bracket that closes the class is behind it
(`OpensRange`).  This is the one place where a phrase depends on what follows.

Nothing here reads from left to right, knows of positions, or fails.
-/
import RegexEngine.Pattern.Class
import RegexEngine.Regex.Basic

namespace RegexEngine

/-! ## Escapes -/

namespace Escape

/-- What the letters with a meaning of their own stand for behind a backslash. -/
def named : List (Nat × Escape) :=
  [('n'.toNat, .symbol 0x0A), ('r'.toNat, .symbol 0x0D), ('t'.toNat, .symbol 0x09),
    ('f'.toNat, .symbol 0x0C), ('v'.toNat, .symbol 0x0B), ('0'.toNat, .symbol 0x00),
    ('d'.toNat, .shorthand ⟨false, SymbolClass.digits⟩),
    ('D'.toNat, .shorthand ⟨true, SymbolClass.digits⟩),
    ('w'.toNat, .shorthand ⟨false, SymbolClass.wordSymbols⟩),
    ('W'.toNat, .shorthand ⟨true, SymbolClass.wordSymbols⟩),
    ('s'.toNat, .shorthand ⟨false, SymbolClass.blanks⟩),
    ('S'.toNat, .shorthand ⟨true, SymbolClass.blanks⟩)]

/-- What a symbol means behind a backslash. -/
inductive Means : Nat → Escape → Prop
  | name {c : Nat} {e : Escape} : (c, e) ∈ named → Means c e
  | itself {c : Nat} : (∀ e, (c, e) ∉ named) → Means c (.symbol c)

theorem means_ofSymbol (c : Nat) : Means c (ofSymbol c) := by
  by_cases hname : ∃ e, (c, e) ∈ named
  · obtain ⟨e, he⟩ := hname
    have hall : ∀ p ∈ named, ofSymbol p.1 = p.2 := by decide
    have heq : ofSymbol c = e := hall _ he
    exact heq ▸ .name he
  · have hno : ∀ e, (c, e) ∉ named := fun e he => hname ⟨e, he⟩
    have heq : ofSymbol c = .symbol c := by
      have hne : ∀ p ∈ named, c ≠ p.1 := by
        rintro ⟨_, e⟩ hp rfl
        exact hno e hp
      simp only [named, List.forall_mem_cons] at hne
      obtain ⟨hn, hr, ht, hf, hv, h0, hd, hD, hw, hW, hs, hS, -⟩ := hne
      rw [ofSymbol, controlEscape?, if_neg hn, if_neg hr, if_neg ht, if_neg hf, if_neg hv,
        if_neg h0]
      dsimp only
      rw [SymbolClass.shorthand?, if_neg hd, if_neg hD, if_neg hw, if_neg hW, if_neg hs, if_neg hS]
    exact heq ▸ .itself hno

theorem means_iff {c : Nat} {e : Escape} : Means c e ↔ ofSymbol c = e := by
  constructor
  · intro h
    cases h with
    | name he =>
        have hall : ∀ p ∈ named, ofSymbol p.1 = p.2 := by decide
        exact hall _ he
    | itself hno =>
        have h := means_ofSymbol c
        generalize ofSymbol c = e at h
        cases h with
        | name he => exact absurd he (hno _)
        | itself _ => rfl
  · rintro rfl
    exact means_ofSymbol c

end Escape

namespace Pattern

/-! ## Classes -/

/-- What a member of a class looks like. -/
inductive Member : List Nat → ClassMember → Prop
  | plain {c : Nat} : c ≠ '\\'.toNat → Member [c] (.symbol c)
  | escape {c d : Nat} : Escape.Means c (.symbol d) → Member ['\\'.toNat, c] (.symbol d)
  | shorthand {c : Nat} {ranges : Array SymbolRange} : Escape.Means c (.shorthand ⟨false, ranges⟩) →
      Member ['\\'.toNat, c] (.shorthand ranges)

/-- A hyphen stands in front of something other than a closing bracket. -/
def OpensRange (cs : List Nat) : Prop :=
  ∃ c rest, cs = '-'.toNat :: c :: rest ∧ c ≠ ']'.toNat

/-- The members of a class and the bracket that closes it, with the ranges of the
class.  The first member may be a bracket itself. -/
inductive Members : Bool → List Nat → List SymbolRange → Prop
  | close : Members false [']'.toNat] []
  | single {first : Bool} {w cs : List Nat} {c : Nat} {ranges : List SymbolRange} :
      (first = true ∨ w ≠ [']'.toNat]) → Member w (.symbol c) → ¬ OpensRange cs →
      Members false cs ranges → Members first (w ++ cs) (.single c :: ranges)
  | range {first : Bool} {w v cs : List Nat} {low high : Nat} {ranges : List SymbolRange} :
      (first = true ∨ w ≠ [']'.toNat]) → Member w (.symbol low) →
      v ≠ [']'.toNat] → Member v (.symbol high) → low ≤ high →
      Members false cs ranges →
      Members first (w ++ '-'.toNat :: (v ++ cs)) (⟨low, high⟩ :: ranges)
  | shorthand {first : Bool} {w cs : List Nat} {more : Array SymbolRange}
      {ranges : List SymbolRange} :
      Member w (.shorthand more) → Members false cs ranges →
      Members first (w ++ cs) (more.toList ++ ranges)

/-- A class behind its opening bracket. -/
inductive ClassBody : List Nat → SymbolClass → Prop
  | positive {cs : List Nat} {ranges : List SymbolRange} : cs.head? ≠ some '^'.toNat →
      Members true cs ranges → ClassBody cs ⟨false, ranges.toArray⟩
  | negative {cs : List Nat} {ranges : List SymbolRange} : Members true cs ranges →
      ClassBody ('^'.toNat :: cs) ⟨true, ranges.toArray⟩

/-! ## Expressions -/

/-- The symbols that stand for something else than themselves outside of a class. -/
def signs : List Nat :=
  ['|', '(', ')', '*', '+', '?', '.', '^', '$', '[', '\\'].map Char.toNat

/-- How a quantifier is written. -/
def quantifierSign : Quantifier → Nat
  | .star => '*'.toNat
  | .plus => '+'.toNat
  | .optional => '?'.toNat

/-- The kinds of phrases that a pattern consists of. -/
inductive Phrase where
  | atom
  | repetition
  | sequence
  | branches
  | alternation
deriving DecidableEq, Inhabited, Repr

/-- A phrase of a kind, in which groups are nested no deeper than the budget, with
the expression that it denotes. -/
inductive Derives : Phrase → Nat → List Nat → Regex → Prop
  | any {budget : Nat} : Derives .atom budget ['.'.toNat] (.symbol .any)
  | start {budget : Nat} : Derives .atom budget ['^'.toNat] (.anchor .start)
  | stop {budget : Nat} : Derives .atom budget ['$'.toNat] (.anchor .stop)
  | group {budget : Nat} {cs : List Nat} {r : Regex} : Derives .alternation budget cs r →
      Derives .atom (budget + 1) ('('.toNat :: (cs ++ [')'.toNat])) r
  | symbolClass {budget : Nat} {cs : List Nat} {k : SymbolClass} : ClassBody cs k →
      Derives .atom budget ('['.toNat :: cs) (.symbol (.among k))
  | escape {budget c : Nat} {e : Escape} : Escape.Means c e →
      Derives .atom budget ['\\'.toNat, c] (.symbol e.toSet)
  | literal {budget c : Nat} : c ∉ signs → Derives .atom budget [c] (.literal c)
  | once {budget : Nat} {cs : List Nat} {r : Regex} : Derives .atom budget cs r →
      Derives .repetition budget cs r
  | quantified {budget : Nat} {cs : List Nat} {r : Regex} (q : Quantifier) :
      Derives .atom budget cs r → r.isAnchor = false →
      Derives .repetition budget (cs ++ [quantifierSign q]) (q.apply r)
  | single {budget : Nat} {cs : List Nat} {r : Regex} : Derives .repetition budget cs r →
      Derives .sequence budget cs r
  | append {budget : Nat} {cs ds : List Nat} {l r : Regex} : Derives .sequence budget cs l →
      Derives .repetition budget ds r → Derives .sequence budget (cs ++ ds) (.concat l r)
  | branch {budget : Nat} {cs : List Nat} {r : Regex} : Derives .sequence budget cs r →
      Derives .branches budget cs r
  | bar {budget : Nat} {cs ds : List Nat} {l r : Regex} : Derives .branches budget cs l →
      Derives .sequence budget ds r →
      Derives .branches budget (cs ++ '|'.toNat :: ds) (.alternate l r)
  | empty {budget : Nat} : Derives .alternation budget [] .empty
  | alternation {budget : Nat} {cs : List Nat} {r : Regex} : Derives .branches budget cs r →
      Derives .alternation budget cs r

end Pattern

end RegexEngine
