/-
# `Automaton.Consumes` — runs over a sequence of symbols, without a text

A run can be described without offsets and units: it is at a *cursor*, which holds the
symbols behind it and those ahead of it.  Anchors look at the nearest symbol on either
side.  This is the meaning of an automaton for an analysis that has no text at hand and
makes up the symbols as it goes.

Over the symbols of a text the two descriptions agree (`path_iff_consumes`).  What the
cursor has behind it are the symbols in front of its offset (`Text.Passed`), and what
it has ahead are those from the offset on; so the one fact to be checked is that an
anchor sees a line feed next to an offset exactly where it is the nearest symbol
(`Text.Passed.holds_iff`).  The unit in front of an offset may be the second half of a
pair, but that half is no line feed, and neither is the pair.
-/
import RegexEngine.Proofs.Match.Acceptance
import RegexEngine.Proofs.Text.Writing

namespace RegexEngine

/-- A state, the symbols passed so far, the last one first, and the symbols to come. -/
structure Cursor where
  state : Nat
  behind : List Nat
  ahead : List Nat

/-- Whether an anchor holds between the symbols behind and those ahead. -/
def Anchor.HoldsBetween (flags : Flags) (behind ahead : List Nat) : Anchor → Prop
  | .start => behind = [] ∨ (flags.multiline = true ∧ behind.head? = some Symbol.newline)
  | .stop => ahead = [] ∨ (flags.multiline = true ∧ ahead.head? = some Symbol.newline)

namespace Automaton

/-- One step over a sequence of symbols. -/
inductive Moves (a : Automaton) : Cursor → Cursor → Prop
  | epsilon {q t : Nat} {behind ahead : List Nat} : .epsilon t ∈ a.out q →
      Moves a ⟨q, behind, ahead⟩ ⟨t, behind, ahead⟩
  | assert {q t : Nat} {anchor : Anchor} {behind ahead : List Nat} :
      .assert anchor t ∈ a.out q → anchor.HoldsBetween a.flags behind ahead →
      Moves a ⟨q, behind, ahead⟩ ⟨t, behind, ahead⟩
  | symbol {q t c : Nat} {s : SymbolSet} {behind ahead : List Nat} :
      .symbol s t ∈ a.out q → s.acceptsSymbol a.flags c = true →
      Moves a ⟨q, behind, c :: ahead⟩ ⟨t, c :: behind, ahead⟩

/-- Some path from the start to the accepting state consumes the symbols. -/
def Consumes (a : Automaton) (cs : List Nat) : Prop :=
  Relation.ReflTransGen a.Moves ⟨a.start, [], cs⟩ ⟨a.accept, cs.reverse, []⟩

end Automaton

/-! ## The symbols in front of an offset -/

/-- A pair takes two units, and a line feed takes one. -/
theorem Surrogate.join_ne_newline (u v : UInt16) : Surrogate.join u v ≠ Symbol.newline := by
  intro h
  have hwidth := Symbol.width_join u v
  rw [h] at hwidth
  cases hwidth

namespace Text

variable {x : Text} {i j c : Nat} {cs behind : List Nat} {flags : Flags}

/-- Reading from the start to an offset passes the symbols, of which the last one comes
first. -/
inductive Passed (x : Text) : Nat → List Nat → Prop
  | start : Passed x 0 []
  | next {i c j : Nat} {cs : List Nat} : Passed x i cs → x.Reads i c j → Passed x j (c :: cs)

theorem Passed.boundary (h : x.Passed i cs) : x.Boundary 0 i := by
  induction h with
  | start => exact .refl
  | next _ hread ih => exact .tail ih ⟨_, hread⟩

theorem Passed.le_length (h : x.Passed i cs) : i ≤ x.length :=
  h.boundary.le_length (Nat.zero_le _)

/-- The symbols on the two sides of an offset are those of the text. -/
theorem Passed.symbols_eq (h : x.Passed i cs) : x.symbols = cs.reverse ++ x.symbolsFrom i := by
  induction h with
  | start => rfl
  | @next i c j cs _ hread ih =>
      rw [ih, hread.symbolsFrom, List.reverse_cons, List.append_assoc]
      rfl

theorem Passed.eq_nil_iff (h : x.Passed i cs) : cs = [] ↔ i = 0 := by
  cases h with
  | start => exact iff_of_true rfl rfl
  | next _ hread =>
      have := hread.lt
      exact iff_of_false (List.cons_ne_nil _ _) (by omega)

/-- A line feed stands at an offset exactly if it is the next symbol. -/
theorem newlineAt_iff : x.newlineAt i = true ↔ (x.symbolsFrom i).head? = some Symbol.newline := by
  by_cases hi : i < x.length
  · have hsize : i < x.units.size := hi
    obtain ⟨u, rest, hdrop, _⟩ := exists_drop_units hi
    have hunit : x.units[i]? = some u := by
      rw [← Array.getElem?_toList, ← List.head?_drop, hdrop]
      rfl
    rw [symbolsFrom_of_lt hi, List.head?_cons, Option.some_inj, symbolAt_of_drop hi hdrop,
      newlineAt, hunit, beq_iff_eq]
    split
    · rename_i hpair
      -- The first half of a pair is no line feed, and neither is the pair.
      obtain ⟨hu, _⟩ := Bool.and_eq_true_iff.mp hpair
      have hhigh := Surrogate.isHigh_iff.mp hu
      refine iff_of_false ?_ (Surrogate.join_ne_newline _ _)
      intro h
      rw [h] at hhigh
      exact absurd hhigh.1 (by decide)
    · exact Iff.rfl
  · have hsize : x.units.size ≤ i := Nat.le_of_not_lt hi
    rw [symbolsFrom_of_ge (Nat.le_of_not_lt hi), newlineAt, Array.getElem?_eq_none hsize]
    exact iff_of_false Bool.false_ne_true nofun

/-- A line feed stands right in front of the end of a symbol exactly if it is that
symbol. -/
theorem Reads.newlineAt_pred_iff (h : x.Reads i c j) :
    x.newlineAt (j - 1) = true ↔ c = Symbol.newline := by
  obtain ⟨hi, hc, hj⟩ := h
  obtain ⟨u, rest, hdrop, hrest⟩ := exists_drop_units hi
  have hat := symbolAt_of_drop hi hdrop
  by_cases hpair : (Surrogate.isHigh u && rest.head?.any Surrogate.isLow) = true
  · -- A pair: its second half stands there, and is no line feed.
    obtain ⟨_, hlow⟩ := Bool.and_eq_true_iff.mp hpair
    cases hhead : rest.head? with
    | none =>
        rw [hhead] at hlow
        cases hlow
    | some v =>
        rw [hhead] at hlow
        have hv := Surrogate.isLow_iff.mp hlow
        rw [if_pos hpair] at hat
        have hwidth := Symbol.width_join u (rest.head?.getD 0)
        rw [← hat, hc] at hwidth
        have hj' : j - 1 = i + 1 := by omega
        have hunit : x.units[i + 1]? = some v := by
          rw [← Array.getElem?_toList, ← List.head?_drop, hrest, hhead]
        rw [hj', newlineAt, hunit, beq_iff_eq]
        rw [← hc, hat]
        refine iff_of_false ?_ (Surrogate.join_ne_newline _ _)
        intro h
        rw [h] at hv
        exact absurd hv.1 (by decide)
  · rw [if_neg hpair] at hat
    have hwidth := Symbol.width_toNat u
    rw [← hat, hc] at hwidth
    have hj' : j - 1 = i := by omega
    rw [hj', newlineAt_iff, symbolsFrom_of_lt hi, List.head?_cons, Option.some_inj, hc]

/-- An anchor sees of a text what stands next to the offset. -/
theorem Passed.holds_iff (h : x.Passed i behind) (anchor : Anchor) :
    anchor.holds x i flags = true ↔ anchor.HoldsBetween flags behind (x.symbolsFrom i) := by
  cases anchor with
  | start =>
      have hline : i ≠ 0 →
          (x.newlineAt (i - 1) = true ↔ behind.head? = some Symbol.newline) := by
        intro hi
        cases h with
        | start => exact absurd rfl hi
        | next _ hread =>
            rw [hread.newlineAt_pred_iff, List.head?_cons, Option.some_inj]
      show (i == 0 || (flags.multiline && x.newlineAt (i - 1))) = true ↔
        behind = [] ∨ (flags.multiline = true ∧ behind.head? = some Symbol.newline)
      rw [Bool.or_eq_true, Bool.and_eq_true, beq_iff_eq, h.eq_nil_iff]
      by_cases hi : i = 0
      · exact iff_of_true (Or.inl hi) (Or.inl hi)
      · rw [hline hi]
  | stop =>
      show (i == x.length || (flags.multiline && x.newlineAt i)) = true ↔ x.symbolsFrom i = [] ∨
        (flags.multiline = true ∧ (x.symbolsFrom i).head? = some Symbol.newline)
      rw [Bool.or_eq_true, Bool.and_eq_true, beq_iff_eq, newlineAt_iff,
        symbolsFrom_eq_nil_iff h.le_length]

end Text

/-! ## Texts and their symbols -/

namespace Automaton

variable {a : Automaton} {x : Text} {i : Nat} {behind : List Nat} {u v : Place}

/-- A step over a text moves the cursor over its symbols. -/
theorem Step.moves (hu : x.Passed u.offset behind) (h : a.Step x u v) :
    ∃ behind', x.Passed v.offset behind' ∧
      a.Moves ⟨u.state, behind, x.symbolsFrom u.offset⟩
        ⟨v.state, behind', x.symbolsFrom v.offset⟩ := by
  cases h with
  | silent hsilent =>
      refine ⟨behind, hu, ?_⟩
      cases hsilent with
      | epsilon hmem => exact .epsilon hmem
      | assert hmem hholds => exact .assert hmem ((hu.holds_iff _).mp hholds)
  | @symbol q t i j c s hmem hread hacc =>
      refine ⟨c :: behind, .next hu hread, ?_⟩
      show a.Moves ⟨q, behind, x.symbolsFrom i⟩ ⟨t, c :: behind, x.symbolsFrom j⟩
      rw [hread.symbolsFrom]
      exact .symbol hmem hacc

/-- A move over the symbols of a text is a step over the text. -/
theorem Moves.step {q : Nat} {next : Cursor} (hi : x.Passed i behind)
    (h : a.Moves ⟨q, behind, x.symbolsFrom i⟩ next) :
    ∃ j, x.Passed j next.behind ∧ next.ahead = x.symbolsFrom j ∧
      a.Step x ⟨q, i⟩ ⟨next.state, j⟩ := by
  generalize hahead : x.symbolsFrom i = ahead at h
  cases h with
  | epsilon hmem => exact ⟨i, hi, hahead.symm, .silent (.epsilon hmem)⟩
  | assert hmem hholds =>
      rw [← hahead] at hholds
      exact ⟨i, hi, hahead.symm, .silent (.assert hmem ((hi.holds_iff _).mpr hholds))⟩
  | symbol hmem hacc =>
      obtain ⟨j, hread, hrest⟩ := Text.exists_reads_of_symbolsFrom hahead
      exact ⟨j, .next hi hread, hrest.symm, .symbol hmem hread hacc⟩

theorem Path.moves (hu : x.Passed u.offset behind) (h : a.Path x u v) :
    ∃ behind', x.Passed v.offset behind' ∧
      Relation.ReflTransGen a.Moves ⟨u.state, behind, x.symbolsFrom u.offset⟩
        ⟨v.state, behind', x.symbolsFrom v.offset⟩ := by
  induction h with
  | refl => exact ⟨behind, hu, .refl⟩
  | tail _ hstep ih =>
      obtain ⟨middle, hmiddle, hfront⟩ := ih
      obtain ⟨behind', hv, hmove⟩ := hstep.moves hmiddle
      exact ⟨behind', hv, .tail hfront hmove⟩

theorem exists_path_of_moves {q : Nat} {next : Cursor} (hi : x.Passed i behind)
    (h : Relation.ReflTransGen a.Moves ⟨q, behind, x.symbolsFrom i⟩ next) :
    ∃ j, x.Passed j next.behind ∧ next.ahead = x.symbolsFrom j ∧
      a.Path x ⟨q, i⟩ ⟨next.state, j⟩ := by
  induction h with
  | refl => exact ⟨i, hi, rfl, .refl⟩
  | @tail middle next _ hmove ih =>
      obtain ⟨k, hk, hahead, hfront⟩ := ih
      obtain ⟨q', behind', ahead'⟩ := middle
      obtain rfl : ahead' = x.symbolsFrom k := hahead
      obtain ⟨j, hj, hnext, hstep⟩ := hmove.step hk
      exact ⟨j, hj, hnext, .tail hfront hstep⟩

/-- A path spans a text exactly if one consumes its symbols. -/
theorem path_iff_consumes :
    a.Path x ⟨a.start, 0⟩ ⟨a.accept, x.length⟩ ↔ a.Consumes x.symbols := by
  have hend : x.symbolsFrom x.length = [] := Text.symbolsFrom_of_ge (Nat.le_refl _)
  constructor
  · intro h
    obtain ⟨behind, hbehind, hmoves⟩ := h.moves .start
    have hsymbols := hbehind.symbols_eq
    dsimp only at hmoves hsymbols
    rw [hend, List.append_nil] at hsymbols
    rw [hend, Text.symbolsFrom_zero] at hmoves
    rw [Consumes, hsymbols, List.reverse_reverse, ← hsymbols]
    exact hmoves
  · intro h
    obtain ⟨j, hj, hahead, hpath⟩ := exists_path_of_moves .start h
    obtain rfl : j = x.length := (Text.symbolsFrom_eq_nil_iff hj.le_length).mp hahead.symm
    exact hpath

/-- Without ceilings, a text is accepted exactly if its symbols are consumed. -/
theorem accepts_iff_consumes (ha : a.WellFormed) :
    a.accepts x .unlimited = .ok true ↔ a.Consumes x.symbols := by
  obtain ⟨b, haccepts, hpath⟩ := accepts_spec ha x
  rw [haccepts, ← path_iff_consumes, ← hpath]
  exact ⟨Except.ok.inj, congrArg _⟩

end Automaton

end RegexEngine
