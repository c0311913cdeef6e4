/-
# Matching without regard to case

Where case is disregarded, a symbol of the pattern is compared in its folded form with
all variants of an input symbol, and a class is asked about each of these variants.
These are two mechanisms, and one equivalence stands behind both of them: symbols are
*alike* when they fold alike.  A folded symbol is among the variants of exactly the
symbols alike to it, and a class that holds with a symbol all symbols alike to it holds
one variant of a symbol exactly if it holds the symbol itself (`SymbolSet.Alike.takes_iff`).

So nothing changes when pattern and text are both replaced by alike ones, symbol by
symbol (`accepts_of_alike`).  Offsets of the two texts correspond when alike symbols have
been passed and alike symbols are to come (`Text.Corresponds`); nothing is said of their
units.  The anchors agree at such offsets, because nothing but a line feed is alike to a
line feed.
-/
import RegexEngine.Proofs.Automaton.Blocks
import RegexEngine.Proofs.Automaton.Consumption
import RegexEngine.Proofs.Regex.Simulation
import RegexEngine.Proofs.Unicode.Folding

namespace RegexEngine

/-! ## Alike symbols -/

namespace Unicode

/-- The symbols differ in case at most: they have one fold. -/
def Alike (c d : Nat) : Prop := foldCase c = foldCase d

instance (c d : Nat) : Decidable (Alike c d) :=
  inferInstanceAs (Decidable (foldCase c = foldCase d))

variable {c d : Nat}

theorem Alike.symm (h : Alike c d) : Alike d c := Eq.symm h

theorem Alike.eq_newline_iff (h : Alike c d) : c = Symbol.newline ↔ d = Symbol.newline := by
  rw [Symbol.newline, ← foldCase_eq_newline_iff, ← foldCase_eq_newline_iff (c := d)]
  exact Eq.congr_left h

/-- The folded form of a symbol is a variant of exactly the symbols alike to it. -/
theorem foldCase_mem_caseVariants_iff : foldCase d ∈ caseVariants c ↔ Alike d c := by
  constructor
  · intro h
    have hfold := foldCase_of_mem_caseVariants h
    rwa [foldCase_foldCase] at hfold
  · intro h
    rw [h]
    exact foldCase_mem_caseVariants c

/-- What holds along with a symbol of all symbols alike to it holds of a variant exactly
if it holds of the symbol. -/
theorem exists_mem_caseVariants_iff {P : Nat → Prop} (hclosed : ∀ v w, Alike v w → P v → P w) :
    (∃ v ∈ caseVariants c, P v) ↔ P c := by
  constructor
  · rintro ⟨v, hv, hP⟩
    exact hclosed v c (foldCase_of_mem_caseVariants hv) hP
  · intro hP
    exact ⟨c, mem_caseVariants_self c, hP⟩

end Unicode

open Unicode (Alike)

/-! ## Alike sets -/

/-- The ranges of the class hold with a symbol all symbols alike to it. -/
def SymbolClass.FoldClosed (k : SymbolClass) : Prop :=
  ∀ v w, Alike v w → SymbolRange.Holds k.ranges.toList v → SymbolRange.Holds k.ranges.toList w

/-- The line feed is a class of its own. -/
theorem SymbolClass.foldClosed_newline (negated : Bool) :
    FoldClosed ⟨negated, #[⟨Symbol.newline, Symbol.newline⟩]⟩ := by
  have hholds : ∀ v, SymbolRange.Holds [⟨Symbol.newline, Symbol.newline⟩] v ↔
      v = Symbol.newline := by
    intro v
    simp only [SymbolRange.Holds, List.mem_singleton, exists_eq_left, SymbolRange.contains_iff]
    exact ⟨fun h => Nat.le_antisymm h.2 h.1, fun h => ⟨h.ge, h.le⟩⟩
  intro v w hvw hv
  exact (hholds w).mpr (hvw.eq_newline_iff.mp ((hholds v).mp hv))

namespace SymbolSet

/-- Two sets are single symbols that are alike, or the same set otherwise; a class must
not tell alike symbols apart. -/
inductive Alike : SymbolSet → SymbolSet → Prop
  | single {c d : Nat} : Unicode.Alike c d → Alike (.single c) (.single d)
  | any : Alike .any .any
  | among {k : SymbolClass} : k.FoldClosed → Alike (.among k) (.among k)

variable {s t : SymbolSet} {c d : Nat} {flags : Flags}

theorem Alike.symm (h : s.Alike t) : t.Alike s := by
  cases h with
  | single h => exact .single h.symm
  | any => exact .any
  | among h => exact .among h

/-- Where case is disregarded, alike sets take alike symbols. -/
theorem Alike.takes_iff (hflags : flags.caseInsensitive = true) (hs : s.Alike t)
    (hc : Unicode.Alike c d) : s.Takes flags c ↔ t.Takes flags d := by
  have hvariants : ∀ c, flags.variants c = Unicode.caseVariants c := fun _ => if_pos hflags
  cases hs with
  | @single a b hab =>
      rw [Takes, Takes, if_pos hflags, if_pos hflags, hvariants, hvariants,
        Unicode.foldCase_mem_caseVariants_iff, Unicode.foldCase_mem_caseVariants_iff]
      exact Eq.congr hab hc
  | any => exact Iff.rfl
  | @among k hk =>
      have hholds : SymbolRange.Holds k.ranges.toList c ↔ SymbolRange.Holds k.ranges.toList d :=
        ⟨hk c d hc, hk d c hc.symm⟩
      rw [Takes, Takes, hvariants, hvariants, Unicode.exists_mem_caseVariants_iff hk,
        Unicode.exists_mem_caseVariants_iff hk, hholds]

end SymbolSet

/-! ## Alike texts -/

namespace Text

/-- The texts have equally many symbols, and they are alike one by one. -/
def Alike (x y : Text) : Prop := List.Forall₂ Unicode.Alike x.symbols y.symbols

/-- The offsets of two texts have alike symbols in front of them and behind them. -/
def Corresponds (x y : Text) (i i' : Nat) : Prop :=
  ∃ behind behind', x.Passed i behind ∧ y.Passed i' behind' ∧
    List.Forall₂ Unicode.Alike behind behind' ∧
    List.Forall₂ Unicode.Alike (x.symbolsFrom i) (y.symbolsFrom i')

variable {x y : Text} {i i' j c : Nat} {flags : Flags}

theorem Alike.symm (h : x.Alike y) : y.Alike x := List.Forall₂.flip (h.imp fun _ _ => .symm)

theorem Alike.corresponds (h : x.Alike y) : x.Corresponds y 0 0 :=
  ⟨[], [], .start, .start, .nil, h⟩

/-- At corresponding offsets alike symbols are read, up to corresponding offsets. -/
theorem Corresponds.reads (h : x.Corresponds y i i') (hread : x.Reads i c j) :
    ∃ d j', y.Reads i' d j' ∧ Unicode.Alike c d ∧ x.Corresponds y j j' := by
  obtain ⟨behind, behind', hi, hi', hbehind, hahead⟩ := h
  rw [hread.symbolsFrom] at hahead
  obtain ⟨d, rest, hc, hrest, heq⟩ := List.forall₂_cons_left_iff.mp hahead
  obtain ⟨j', hread', rfl⟩ := exists_reads_of_symbolsFrom heq
  exact ⟨d, j', hread', hc, c :: behind, d :: behind', .next hi hread, .next hi' hread',
    .cons hc hbehind, hrest⟩

/-- Lists of alike symbols are empty together, and begin with a line feed together. -/
theorem nil_or_newline_iff {cs ds : List Nat} {multiline : Bool}
    (h : List.Forall₂ Unicode.Alike cs ds) :
    (cs = [] ∨ (multiline = true ∧ cs.head? = some Symbol.newline)) ↔
      (ds = [] ∨ (multiline = true ∧ ds.head? = some Symbol.newline)) := by
  cases h with
  | nil => exact Iff.rfl
  | cons h _ => simp only [List.head?_cons, Option.some_inj, h.eq_newline_iff, reduceCtorEq]

theorem Corresponds.holds_iff (h : x.Corresponds y i i') (a : Anchor) :
    a.holds x i flags = true ↔ a.holds y i' flags = true := by
  obtain ⟨behind, behind', hi, hi', hbehind, hahead⟩ := h
  rw [hi.holds_iff, hi'.holds_iff]
  cases a with
  | start => exact nil_or_newline_iff hbehind
  | stop => exact nil_or_newline_iff hahead

/-- The end of a text corresponds to the end of the other one only. -/
theorem Corresponds.eq_length (h : x.Corresponds y x.length i') : i' = y.length := by
  obtain ⟨_, behind', _, hi', _, hahead⟩ := h
  rw [symbolsFrom_of_ge (Nat.le_refl _)] at hahead
  exact (symbolsFrom_eq_nil_iff hi'.le_length).mp (List.forall₂_nil_left_iff.mp hahead)

end Text

/-! ## Alike expressions -/

namespace Regex

/-- The expressions have the same shape and the same anchors, and their sets are alike
one by one. -/
def Alike : Regex → Regex → Prop := Parallel SymbolSet.Alike

variable {r r' : Regex} {x y : Text} {flags : Flags}

theorem Alike.symm (h : r.Alike r') : r'.Alike r := Parallel.symm (fun _ _ => .symm) h

/-- What an expression spans in a text, an alike one spans in an alike text. -/
theorem Alike.simulates (hflags : flags.caseInsensitive = true) (h : r.Alike r') :
    Simulates (x.Corresponds y) (r.Spans flags x) (r'.Spans flags y) := by
  refine Parallel.simulates ?_ (fun a i i' hi hholds => (hi.holds_iff a).mp hholds) h
  rintro s t hst i j i' hi ⟨c, hread, htakes⟩
  obtain ⟨d, j', hread', hc, hj⟩ := hi.reads hread
  exact ⟨j', ⟨d, hread', (hst.takes_iff hflags hc).mp htakes⟩, hj⟩

theorem Alike.spans_whole (hflags : flags.caseInsensitive = true) (h : r.Alike r')
    (hx : x.Alike y) (hspans : r.Spans flags x 0 x.length) : r'.Spans flags y 0 y.length := by
  obtain ⟨j, hspans', hj⟩ := h.simulates hflags hx.corresponds hspans
  exact hj.eq_length ▸ hspans'

end Regex

namespace Automaton

/-- **Matching without regard to case disregards it on both sides**: for alike
expressions and alike texts, the two automata give the same answer. -/
theorem accepts_of_alike (flags : Flags) (hflags : flags.caseInsensitive = true)
    {r r' : Regex} (hr : r.Alike r') {x y : Text} (hx : x.Alike y) :
    ∃ b, (ofRegex r flags).accepts x .unlimited = .ok b ∧
      (ofRegex r' flags).accepts y .unlimited = .ok b := by
  obtain ⟨b, haccepts, hspans⟩ := accepts_spec (wellFormed_ofRegex r flags) x
  obtain ⟨b', haccepts', hspans'⟩ := accepts_spec (wellFormed_ofRegex r' flags) y
  rw [path_ofRegex_iff] at hspans hspans'
  have heq : b = true ↔ b' = true := by
    rw [hspans, hspans']
    exact ⟨hr.spans_whole hflags hx, hr.symm.spans_whole hflags hx.symm⟩
  rw [← Bool.eq_iff_iff.mpr heq] at haccepts'
  exact ⟨b, haccepts, haccepts'⟩

/-- The expression of `.^[^\n]`, with one or more of a given symbol behind it. -/
def lineOf (c : Nat) : Regex :=
  .concat (.symbol .any) (.concat (.anchor .start)
    (.concat (.symbol (.among ⟨true, #[⟨0x0A, 0x0A⟩]⟩)) (.plus (.literal c))))

/-- A small `k` in the pattern stands for the Kelvin sign, and a final sigma in the text
for an inner one. -/
theorem lineOf_accepts_of_alike :
    (ofRegex (lineOf 0x6B) ⟨true, true⟩).accepts (.ofString "\nςKk") .unlimited = .ok true ∧
      (ofRegex (lineOf 0x212A) ⟨true, true⟩).accepts (.ofString "\nσkK") .unlimited = .ok true := by
  have hkelvin : Unicode.Alike 0x6B 0x212A := by decide +kernel
  have hexpression : (lineOf 0x6B).Alike (lineOf 0x212A) :=
    .concat (.symbol .any) (.concat (.anchor .start)
      (.concat (.symbol (.among (SymbolClass.foldClosed_newline true)))
        (.plus (.symbol (.single hkelvin)))))
  have htext : (Text.ofString "\nςKk").Alike (.ofString "\nσkK") := by
    rw [Text.Alike]
    decide +kernel
  have haccepts : (ofRegex (lineOf 0x6B) ⟨true, true⟩).accepts (.ofString "\nςKk") .unlimited =
      .ok true := by
    decide +kernel
  obtain ⟨b, hb, hb'⟩ := accepts_of_alike ⟨true, true⟩ rfl hexpression htext
  obtain rfl : true = b := Except.ok.inj (haccepts.symm.trans hb)
  exact ⟨haccepts, hb'⟩

end Automaton

end RegexEngine
