/-
# `Automaton.witness?` — the witness is accepted, and none is shorter

A configuration of the search stands for many cursors: it knows whether a line starts,
and what it has promised about the symbols ahead (`Phase.Allows`).

*What is found is consumed.*  A node has consumed its symbols whatever comes next, as
long as its promise is kept (`Grounded`).  A `$` makes a promise; a symbol keeps it, as
the only sample behind a promised line feed is a line feed, and nothing is tried where
the text was promised to end.  At the accepting state the promise must be one that the
end of the text keeps.

*What is consumed is found.*  The search follows every run with configurations that
cover its cursors (`Covers`).  It takes a sample in place of the run's own symbol, which
loses nothing: what comes next depends on the symbol only through whether a line starts
behind it, and where lines matter a set that accepts a line feed is tried with one.  So
all that this direction needs is that every set which accepts a symbol has a sample
(`Samplable`).

The witness is a text, not a list of symbols.  Two surrogates that the search has put
one behind the other are one symbol of it; then the text is shorter than the list, and
need not be accepted.
-/
import Mathlib.Data.Fin.Tuple.Basic
import RegexEngine.Proofs.Automaton.Consumption
import RegexEngine.Proofs.Automaton.Exploration
import RegexEngine.Proofs.Symbol.Sampling

namespace RegexEngine

/-- What a search in this phase has promised about the symbols ahead. -/
def Phase.Allows : Phase → List Nat → Prop
  | .free, _ => True
  | .newline, ahead => ahead.head? = some Symbol.newline
  | .ended, ahead => ahead = []

/-- The set of the transition, if it has one, is as matching expects it: its ranges
ascend without overlap, and nothing in it lies behind the last symbol. -/
def Transition.Sorted : Transition → Prop
  | .symbol s _ => s.Separated ∧ s.Within
  | .epsilon _ | .assert _ _ => True

instance : DecidablePred Transition.Sorted
  | .symbol s _ => inferInstanceAs (Decidable (s.Separated ∧ s.Within))
  | .epsilon _ | .assert _ _ => inferInstanceAs (Decidable True)

namespace Automaton

/-- The sets of all transitions are as matching expects them. -/
def Sorted (a : Automaton) : Prop := ∀ q, ∀ tr ∈ a.out q, tr.Sorted

instance : DecidablePred Sorted := fun _ => decidable_of_iff _ forall_mem_out_iff.symm

/-- Every set that accepts a symbol has a sample. -/
def Samplable (a : Automaton) : Prop :=
  ∀ q s t c, .symbol s t ∈ a.out q → c ≤ Symbol.last → s.acceptsSymbol a.flags c = true →
    ∃ d, s.sample? a.flags = some d

variable {a : Automaton} {c d : Config} {u v : Cursor} {node m : SearchNode} {cs : List Nat}

/-! ## What is found is consumed -/

/-- The node has consumed its symbols, whatever comes next and keeps its promise. -/
structure Grounded (a : Automaton) (node : SearchNode) : Prop where
  line : node.config.lineStart = true →
    ∀ ahead, Anchor.start.HoldsBetween a.flags node.consumed ahead
  le_last : ∀ c ∈ node.consumed, c ≤ Symbol.last
  moves : ∀ ahead, node.config.phase.Allows ahead →
    Relation.ReflTransGen a.Moves ⟨a.start, [], node.consumed.reverse ++ ahead⟩
      ⟨node.config.state, node.consumed, ahead⟩

theorem Grounded.start (a : Automaton) : Grounded a ⟨a.startConfig, []⟩ where
  line := fun _ _ => Or.inl rfl
  le_last := List.forall_mem_nil _
  moves := fun _ _ => .refl

/-- Whatever keeps the promise behind a silent step keeps the one in front of it, and the
move is open there: a `$` has just promised what it asks for. -/
theorem SilentTo.moves {behind ahead : List Nat} (h : a.SilentTo c d)
    (hline : c.lineStart = true → Anchor.start.HoldsBetween a.flags behind ahead)
    (hahead : d.phase.Allows ahead) :
    c.phase.Allows ahead ∧ a.Moves ⟨c.state, behind, ahead⟩ ⟨d.state, behind, ahead⟩ := by
  cases h with
  | epsilon htr => exact ⟨hahead, .epsilon htr⟩
  | start htr => exact ⟨hahead, .assert htr (hline rfl)⟩
  | @ended q t line phase htr hphase =>
      have hend : ahead = [] := hahead
      refine ⟨?_, .assert htr (Or.inl hend)⟩
      cases phase with
      | free => trivial
      | newline => exact absurd rfl hphase
      | ended => exact hend
  | @newline q t line phase htr hlines hphase =>
      have hnewline : ahead.head? = some Symbol.newline := hahead
      refine ⟨?_, .assert htr (Or.inr ⟨hlines, hnewline⟩)⟩
      cases phase with
      | free => trivial
      | newline => exact hnewline
      | ended => exact absurd rfl hphase

theorem SilentTo.lineStart_eq (h : a.SilentTo c d) : d.lineStart = c.lineStart := by
  cases h <;> rfl

theorem Grounded.silent (h : Grounded a node) (hm : m ∈ a.silentNodes node) : Grounded a m := by
  obtain ⟨hsilent, hconsumed⟩ := mem_silentNodes.mp hm
  obtain ⟨c, consumed⟩ := node
  obtain ⟨d, consumed'⟩ := m
  obtain rfl : consumed' = consumed := hconsumed
  refine ⟨?_, h.le_last, ?_⟩
  · intro hstart ahead
    exact h.line (hsilent.lineStart_eq ▸ hstart) ahead
  · intro ahead hahead
    obtain ⟨hbefore, hmove⟩ := hsilent.moves (fun hstart => h.line hstart ahead) hahead
    exact .tail (h.moves ahead hbefore) hmove

/-- A symbol is a sample of its set, and keeps the promise that a line feed follows. -/
theorem Grounded.symbol (hs : a.Sorted) (h : Grounded a node) (hm : m ∈ a.symbolNodes node) :
    Grounded a m := by
  obtain ⟨sample, ⟨hopen, s, t, htr, hsample, hconfig⟩, hconsumed⟩ := mem_symbolNodes.mp hm
  obtain ⟨hseparated, hwithin⟩ : s.Separated ∧ s.Within := hs _ _ htr
  obtain ⟨hacc, hlast, hnewline⟩ := SymbolSet.accepts_of_mem_samples hseparated hwithin hsample
  obtain ⟨d, consumed'⟩ := m
  obtain rfl : consumed' = sample :: node.consumed := hconsumed
  obtain rfl : d = _ := hconfig
  refine ⟨?_, List.forall_mem_cons.mpr ⟨hlast, h.le_last⟩, ?_⟩
  · intro hstart ahead
    have hboth : (a.flags.multiline && sample == Symbol.newline) = true := hstart
    rw [Bool.and_eq_true, beq_iff_eq] at hboth
    exact Or.inr ⟨hboth.1, congrArg some hboth.2⟩
  · intro ahead _
    have hallows : node.config.phase.Allows (sample :: ahead) := by
      cases hphase : node.config.phase with
      | free => trivial
      | newline => exact congrArg some (hnewline (decide_eq_true hphase))
      | ended => exact absurd hphase hopen
    rw [List.reverse_cons, List.append_assoc]
    exact .tail (h.moves (sample :: ahead) hallows) (.symbol htr hacc)

/-- The symbols of what is found are consumed. -/
theorem consumes_of_found (hs : a.Sorted) (h : a.exploration.found = some node) :
    a.Consumes node.consumed.reverse ∧ ∀ c ∈ node.consumed, c ≤ Symbol.last := by
  obtain ⟨hgrounded, haccept⟩ := searchLayers_forall (P := Grounded a)
    (fun _ _ hnode hm => hnode.silent hm) (fun _ _ hnode hm => hnode.symbol hs hm)
    (List.forall_mem_cons.mpr ⟨.start a, List.forall_mem_nil _⟩) h
  rw [acceptsAt, Bool.and_eq_true, beq_iff_eq, bne_iff_ne] at haccept
  obtain ⟨hstate, hphase⟩ := haccept
  have hend : node.config.phase.Allows [] := by
    cases hp : node.config.phase with
    | free => trivial
    | newline => exact absurd hp hphase
    | ended => rfl
  have hmoves := hgrounded.moves [] hend
  rw [List.append_nil, hstate] at hmoves
  refine ⟨?_, hgrounded.le_last⟩
  rw [Consumes, List.reverse_reverse]
  exact hmoves

/-! ## What is consumed is found -/

/-- The configuration stands for the cursor. -/
structure Covers (a : Automaton) (c : Config) (u : Cursor) : Prop where
  state_eq : c.state = u.state
  line : Anchor.start.HoldsBetween a.flags u.behind u.ahead → c.lineStart = true
  allows : c.phase.Allows u.ahead

/-- A search can follow a move, from a configuration that covers its cursor to one that
covers the next. -/
theorem Moves.covered (hsamplable : a.Samplable) (h : a.Moves u v)
    (hlast : ∀ c ∈ u.ahead, c ≤ Symbol.last) (hu : Covers a c u)
    (hreach : a.Reached u.behind.length c) :
    ∃ d, a.Reached v.behind.length d ∧ Covers a d v := by
  obtain ⟨q, line, phase⟩ := c
  obtain ⟨hstate, hline, hallows⟩ := hu
  dsimp only at hstate hline hallows
  subst hstate
  cases h with
  | @epsilon q t behind ahead hmem =>
      exact ⟨⟨t, line, phase⟩, .silent hreach (.epsilon hmem), rfl, hline, hallows⟩
  | @assert q t anchor behind ahead hmem hholds =>
      cases anchor with
      | start =>
          obtain rfl : line = true := hline hholds
          exact ⟨⟨t, true, phase⟩, .silent hreach (.start hmem), rfl, hline, hallows⟩
      | stop =>
          rcases hholds with hend | ⟨hlines, hnewline⟩
          · have hphase : phase ≠ .newline := by
              rintro rfl
              have hhead : ahead.head? = some Symbol.newline := hallows
              rw [hend] at hhead
              cases hhead
            exact ⟨⟨t, line, .ended⟩, .silent hreach (.ended hmem hphase), rfl, hline, hend⟩
          · have hphase : phase ≠ .ended := by
              rintro rfl
              have hend : ahead = [] := hallows
              rw [hend] at hnewline
              cases hnewline
            exact ⟨⟨t, line, .newline⟩, .silent hreach (.newline hmem hlines hphase), rfl, hline,
              hnewline⟩
  | @symbol q t c s behind ahead hmem hacc =>
      have hopen : phase ≠ .ended := by
        rintro rfl
        cases (hallows : c :: ahead = [])
      by_cases hfeed : c = Symbol.newline ∧ (phase = .newline ∨ a.flags.multiline = true)
      · -- A line feed that matters is itself a sample.
        obtain ⟨rfl, hmatters⟩ := hfeed
        have hsample := SymbolSet.newline_mem_samples (phase = .newline) hacc
          (hmatters.imp_left decide_eq_true)
        refine ⟨_, .symbol hreach ⟨hopen, s, t, hmem, hsample, rfl⟩, rfl, ?_, trivial⟩
        rintro (hnil | ⟨hlines, _⟩)
        · cases hnil
        · show (a.flags.multiline && Symbol.newline == Symbol.newline) = true
          rw [hlines]
          rfl
      · -- Behind any other symbol no line starts, so every sample serves.
        have hfree : phase ≠ .newline := by
          rintro rfl
          exact hfeed ⟨Option.some.inj hallows, Or.inl rfl⟩
        obtain ⟨d, hd⟩ := hsamplable q s t c hmem (hlast c List.mem_cons_self) hacc
        have hsample : d ∈ s.samples a.flags (phase = .newline) := by
          rw [SymbolSet.samples, if_neg (by simpa using hfree), hd]
          exact List.mem_append_left _ (List.mem_singleton_self d)
        refine ⟨_, .symbol hreach ⟨hopen, s, t, hmem, hsample, rfl⟩, rfl, ?_, trivial⟩
        rintro (hnil | ⟨hlines, hnewline⟩)
        · cases hnil
        · exact absurd ⟨Option.some.inj hnewline, Or.inr hlines⟩ hfeed

theorem Moves.ahead_suffix (h : a.Moves u v) : v.ahead <:+ u.ahead := by
  cases h with
  | epsilon _ => exact List.suffix_refl _
  | assert _ _ => exact List.suffix_refl _
  | symbol _ _ => exact List.suffix_cons _ _

/-- If the automaton consumes some symbols, its search finds no more of them. -/
theorem found_of_consumes (ha : a.WellFormed) (hsamplable : a.Samplable)
    (hlast : ∀ c ∈ cs, c ≤ Symbol.last) (h : a.Consumes cs) :
    ∃ node, a.exploration.found = some node ∧ node.consumed.length ≤ cs.length := by
  have hcovered : ∀ v, Relation.ReflTransGen a.Moves ⟨a.start, [], cs⟩ v →
      v.ahead <:+ cs ∧ ∃ d, a.Reached v.behind.length d ∧ Covers a d v := by
    intro v hv
    induction hv with
    | refl =>
        exact ⟨List.suffix_refl _, a.startConfig, .start, rfl, fun _ => rfl, trivial⟩
    | tail _ hmove ih =>
        obtain ⟨hsuffix, d, hreach, hcovers⟩ := ih
        exact ⟨hmove.ahead_suffix.trans hsuffix, hmove.covered hsamplable
          (fun c hc => hlast c (hsuffix.subset hc)) hcovers hreach⟩
  obtain ⟨_, d, hreach, hcovers⟩ := hcovered _ h
  have haccept : a.acceptsAt d = true := by
    rw [acceptsAt, Bool.and_eq_true, beq_iff_eq, bne_iff_ne]
    refine ⟨hcovers.state_eq, ?_⟩
    intro hphase
    have hallows := hcovers.allows
    rw [hphase] at hallows
    cases (hallows : ([] : List Nat).head? = some Symbol.newline)
  have hlength : cs.reverse.length = cs.length := List.length_reverse
  rw [← hlength]
  exact exists_found ha hreach haccept

/-! ## Witnesses -/

theorem witness?_of_found (h : a.exploration.found = some node) :
    a.witness? = some (.ofSymbols node.consumed.reverse) := by
  rw [witness?, witnessSymbols?, h]
  rfl

theorem exists_found_of_witness? {w : Text} (h : a.witness? = some w) :
    ∃ node, a.exploration.found = some node ∧ .ofSymbols node.consumed.reverse = w := by
  rw [witness?, witnessSymbols?, Option.map_map, Option.map_eq_some_iff] at h
  exact h

theorem isEmpty_of_witness? {w : Text} (h : a.witness? = some w) : a.isEmpty = false := by
  rw [isEmpty, h]
  rfl

/-- Where every set has a sample, no accepted text has fewer symbols than the witness. -/
theorem exists_witness? (ha : a.WellFormed) (hsamplable : a.Samplable) {x : Text}
    (hx : a.accepts x .unlimited = .ok true) :
    ∃ node, a.exploration.found = some node ∧ node.consumed.length ≤ x.symbolCount := by
  rw [Text.symbolCount_eq, Text.symbolsFrom_zero]
  exact found_of_consumes ha hsamplable (fun c => Text.le_last_of_mem_symbols)
    ((accepts_iff_consumes ha).mp hx)

theorem samplable_of_caseSensitive (hs : a.Sorted) (hcase : a.flags.caseInsensitive = false) :
    a.Samplable := by
  intro q s t c hmem hc hacc
  have hsorted : s.Separated ∧ s.Within := hs q _ hmem
  exact SymbolSet.exists_sample? hsorted.1
    (SymbolClass.opensAt_of_caseSensitive hcase 0) (SymbolSet.gapsOpen_of_caseSensitive hcase s)
    hc hacc

/-- With regard to case, an automaton that accepts a text has a witness, which has no
more symbols than the text. -/
theorem witness?_shortest (ha : a.WellFormed) (hs : a.Sorted)
    (hcase : a.flags.caseInsensitive = false) {x : Text}
    (hx : a.accepts x .unlimited = .ok true) :
    ∃ w, a.witness? = some w ∧ a.isEmpty = false ∧ w.symbolCount ≤ x.symbolCount := by
  obtain ⟨node, hfound, hlength⟩ :=
    exists_witness? ha (samplable_of_caseSensitive hs hcase) hx
  have hwitness := witness?_of_found hfound
  have hlast : ∀ c ∈ node.consumed.reverse, c ≤ Symbol.last := fun c hc =>
    (consumes_of_found hs hfound).2 c (List.mem_reverse.mp hc)
  refine ⟨_, hwitness, isEmpty_of_witness? hwitness, ?_⟩
  calc (Text.ofSymbols node.consumed.reverse).symbolCount
      ≤ node.consumed.reverse.length := Text.symbolCount_ofSymbols_le hlast
    _ = node.consumed.length := List.length_reverse
    _ ≤ x.symbolCount := hlength

/-- A multiline automaton of `$[^ -~]^[bcd-f]`, with a silent loop in front of the second
anchor.  The line feed that both anchors need is one that the negated class takes. -/
def lineBreak : Automaton where
  states := #[
    [.assert .stop 1],
    [.symbol (.among ⟨true, #[⟨0x20, 0x7E⟩]⟩) 2],
    [.epsilon 2, .assert .start 3],
    [.symbol (.among ⟨false, #[⟨0x62, 0x63⟩, ⟨0x64, 0x66⟩]⟩) 4],
    []]
  start := 0
  accept := 4
  flags := ⟨false, true⟩

theorem lineBreak_witness?_shortest :
    lineBreak.WellFormed ∧ lineBreak.Sorted ∧ lineBreak.flags.caseInsensitive = false ∧
      lineBreak.accepts (.ofString "\nc") .unlimited = .ok true ∧
      ∃ w, lineBreak.witness? = some w ∧ lineBreak.isEmpty = false ∧
        w.symbolCount ≤ (Text.ofString "\nc").symbolCount := by
  have hwell : lineBreak.WellFormed := by decide
  have hsorted : lineBreak.Sorted := by decide
  have hrun : lineBreak.accepts (.ofString "\nc") .unlimited = .ok true := by decide +kernel
  exact ⟨hwell, hsorted, rfl, hrun, witness?_shortest hwell hsorted rfl hrun⟩

/-- A witness is written by symbols that some path consumes.  If a path consumes symbols
that are written as the witness, and no two of them join, then the witness is accepted. -/
theorem witness?_consumed (ha : a.WellFormed) (hs : a.Sorted) {w : Text}
    (hw : a.witness? = some w) :
    (∃ cs, .ofSymbols cs = w ∧ (∀ c ∈ cs, c ≤ Symbol.last) ∧ a.Consumes cs) ∧
      ∀ cs, .ofSymbols cs = w → (∀ c ∈ cs, c ≤ Symbol.last) → a.Consumes cs →
        Symbol.Apart cs → a.accepts w .unlimited = .ok true := by
  constructor
  · obtain ⟨node, hfound, htext⟩ := exists_found_of_witness? hw
    obtain ⟨hconsumes, hlast⟩ := consumes_of_found hs hfound
    exact ⟨node.consumed.reverse, htext, fun c hc => hlast c (List.mem_reverse.mp hc), hconsumes⟩
  · intro cs hcs hlast hconsumes hapart
    have hread := Text.symbols_ofSymbols hlast hapart
    rw [hcs] at hread
    rw [accepts_iff_consumes ha, hread]
    exact hconsumes

/-- The path takes each anchor of `lineBreak` next to the line feed. -/
theorem lineBreak_consumes : lineBreak.Consumes [Symbol.newline, 'b'.toNat] := by
  have hstop : .assert .stop 1 ∈ lineBreak.out 0 := by decide
  have hbreak : .symbol (.among ⟨true, #[⟨0x20, 0x7E⟩]⟩) 2 ∈ lineBreak.out 1 := by decide
  have hstart : .assert .start 3 ∈ lineBreak.out 2 := by decide
  have hletter : .symbol (.among ⟨false, #[⟨0x62, 0x63⟩, ⟨0x64, 0x66⟩]⟩) 4 ∈ lineBreak.out 3 := by
    decide
  refine .head (.assert hstop (Or.inr ⟨rfl, rfl⟩)) ?_
  refine .head (.symbol hbreak (by decide +kernel)) ?_
  refine .head (.assert hstart (Or.inr ⟨rfl, rfl⟩)) ?_
  exact .single (.symbol hletter (by decide +kernel))

theorem lineBreak_witness?_consumed :
    lineBreak.WellFormed ∧ lineBreak.Sorted ∧ lineBreak.witness? = some (.ofString "\nb") ∧
      Symbol.Apart [Symbol.newline, 'b'.toNat] ∧
      lineBreak.accepts (.ofString "\nb") .unlimited = .ok true := by
  have hwell : lineBreak.WellFormed := by decide
  have hsorted : lineBreak.Sorted := by decide
  have hwitness : lineBreak.witness? = some (.ofString "\nb") := by cbv
  have hapart : Symbol.Apart [Symbol.newline, 'b'.toNat] := by
    simp [Symbol.Apart, Symbol.Joins, Symbol.newline]
  obtain ⟨_, haccepts⟩ := witness?_consumed hwell hsorted hwitness
  exact ⟨hwell, hsorted, hwitness, hapart, haccepts _ rfl (by decide) lineBreak_consumes hapart⟩

end Automaton

end RegexEngine
