/-
# A text that is matched verbatim

The expression of a sequence of symbols spans exactly where these symbols stand
(`spans_verbatim_iff`), as case is regarded.  All that is read off an expression can be
computed for it: both bounds on its length are the number of its symbols, and its required
symbols are all of them.

Put together with the pattern of a text, this says what becomes of an escaped text from
its source to the answers of the calls (`compile_escaped`).  A text can overlap itself, so
matches can overlap as well; the first one is found all the same.
-/
import RegexEngine.Proofs.Match.Meaning
import RegexEngine.Proofs.Pattern.Escaping
import RegexEngine.Proofs.Text.Occurrence

namespace RegexEngine

/-! ## What is read off the expression -/

namespace Regex

variable {r : Regex} {cs : List Nat}

theorem minLength_followedBy (r : Regex) (cs : List Nat) :
    (r.followedBy cs).minLength = r.minLength + cs.length := by
  induction cs generalizing r with
  | nil => rfl
  | cons c cs ih =>
      have hone : (concat r (literal c)).minLength = r.minLength + 1 := rfl
      rw [followedBy, ih, hone, List.length_cons, Nat.add_assoc, Nat.add_comm 1]

theorem maxLength_followedBy {n : Nat} (h : r.maxLength? = some n) (cs : List Nat) :
    (r.followedBy cs).maxLength? = some (n + cs.length) := by
  induction cs generalizing r n with
  | nil => exact h
  | cons c cs ih =>
      have hone : (concat r (literal c)).maxLength? = some (n + 1) := by
        rw [maxLength?, h]
        rfl
      rw [followedBy, ih hone, List.length_cons, Nat.add_assoc, Nat.add_comm 1]

theorem factors_followedBy (r : Regex) (cs : List Nat) :
    (r.followedBy cs).factors = r.factors ++ cs.map literal := by
  induction cs generalizing r with
  | nil => exact (List.append_nil _).symm
  | cons c cs ih =>
      have hliteral : (literal c).factors = [literal c] := rfl
      rw [followedBy, ih, factors_concat, hliteral, List.append_assoc]
      rfl

theorem leadingLiterals_literals (cs : List Nat) : leadingLiterals (cs.map literal) = cs := by
  induction cs with
  | nil => rfl
  | cons c cs ih => exact congrArg (c :: ·) ih

theorem minLength_verbatim (cs : List Nat) : (verbatim cs).minLength = cs.length := by
  cases cs with
  | nil => rfl
  | cons c cs => exact (minLength_followedBy _ cs).trans (Nat.add_comm 1 _)

theorem maxLength_verbatim (cs : List Nat) : (verbatim cs).maxLength? = some cs.length := by
  cases cs with
  | nil => rfl
  | cons c cs =>
      have hone : (literal c).maxLength? = some 1 := rfl
      rw [verbatim, maxLength_followedBy hone, List.length_cons, Nat.add_comm 1]

/-- All symbols are required, as none of them is an anchor. -/
theorem requiredSymbols_verbatim (cs : List Nat) : (verbatim cs).requiredSymbols = cs := by
  cases cs with
  | nil => rfl
  | cons c cs =>
      have hfactors : ((literal c).followedBy cs).factors = (c :: cs).map literal :=
        factors_followedBy (literal c) cs
      rw [verbatim, requiredSymbols, hfactors]
      exact leadingLiterals_literals (c :: cs)

/-! ## What the expression spans -/

variable {flags : Flags} {x : Text} {i j : Nat}

theorem spans_literal_iff (hcase : flags.caseInsensitive = false) {c : Nat} :
    (literal c).Spans flags x i j ↔ x.Reads i c j := by
  have htakes : ∀ d, (SymbolSet.single c).Takes flags d ↔ d = c := fun d => by
    rw [SymbolSet.Takes, hcase, if_neg Bool.false_ne_true]
  constructor
  · rintro ⟨d, hread, hd⟩
    exact (htakes d).mp hd ▸ hread
  · intro hread
    exact ⟨c, hread, (htakes c).mpr rfl⟩

theorem spans_followedBy_iff (hcase : flags.caseInsensitive = false) :
    (r.followedBy cs).Spans flags x i j ↔ ∃ k, r.Spans flags x i k ∧ x.Stands cs k j := by
  induction cs generalizing r with
  | nil =>
      constructor
      · intro h
        exact ⟨j, h, rfl⟩
      · rintro ⟨k, h, rfl⟩
        exact h
  | cons c cs ih =>
      rw [followedBy, ih]
      constructor
      · rintro ⟨l, ⟨k, hr, hc⟩, hcs⟩
        exact ⟨k, hr, l, (spans_literal_iff hcase).mp hc, hcs⟩
      · rintro ⟨k, hr, l, hread, hcs⟩
        exact ⟨l, ⟨k, hr, (spans_literal_iff hcase).mpr hread⟩, hcs⟩

/-- The expression of some symbols spans where they stand. -/
theorem spans_verbatim_iff (hcase : flags.caseInsensitive = false) :
    (verbatim cs).Spans flags x i j ↔ x.Stands cs i j := by
  cases cs with
  | nil => exact Iff.rfl
  | cons c cs =>
      rw [verbatim, spans_followedBy_iff hcase]
      exact exists_congr fun k => and_congr_left fun _ => spans_literal_iff hcase

end Regex

/-! ## Calls with an escaped text -/

namespace Text

/-- The pattern that an escaped text is read as. -/
def verbatimPattern (w : Text) : Pattern := ⟨w.escaped, .verbatim w.symbols, {}⟩

variable {w x : Text} {i j : Nat}

theorem compile_escaped_eq_ok (w : Text) :
    compile w.escaped {} .unlimited = .ok (w.verbatimPattern.compile .unlimited) := by
  rw [compile, Pattern.parse, Pattern.parseRegex_escaped]
  rfl

theorem symbols_eq_nil_iff : w.symbols = [] ↔ w = .empty := by
  constructor
  · intro h
    rw [← ofSymbols_symbols w, h]
    rfl
  · rintro rfl
    rfl

theorem requiredPrefix_verbatim (w : Text) :
    (Filter.ofPattern w.verbatimPattern).requiredPrefix = if w = .empty then none else some w := by
  have hrequired : w.verbatimPattern.root.requiredSymbols = w.symbols :=
    Regex.requiredSymbols_verbatim w.symbols
  have hcase : w.verbatimPattern.flags.caseInsensitive = false := rfl
  rw [Filter.ofPattern, hrequired, hcase, Bool.false_or, ofSymbols_symbols]
  simp only [List.isEmpty_iff, symbols_eq_nil_iff]

/-- The matches of the pattern of a text are the occurrences of the text. -/
theorem matchFrom_verbatim_iff : w.verbatimPattern.automaton.MatchFrom x 0 i j ↔
    w.Occurs x i ∧ j = i + w.length := by
  show (Automaton.ofRegex (.verbatim w.symbols) {}).MatchFrom x 0 i j ↔ _
  rw [Automaton.matchFrom_ofRegex_iff, Regex.spans_verbatim_iff rfl, occurs_iff_stands]
  constructor
  · rintro ⟨hi, h⟩
    obtain rfl := h.stop_eq (hi.le_length (Nat.zero_le _))
    exact ⟨⟨hi, h⟩, rfl⟩
  · rintro ⟨⟨hi, h⟩, rfl⟩
    exact ⟨hi, h⟩

/-- A search for a text finds its first occurrence. -/
theorem find_verbatim (w x : Text) :
    ∃ found, w.verbatimPattern.automaton.find x (.ofNat 0) .unlimited = .ok found ∧
      (found = none → ∀ i, ¬ w.Occurs x i) ∧
      ∀ span, found = some span → w.Occurs x span.start ∧
        (∀ i, w.Occurs x i → span.start ≤ i) ∧ span.stop = span.start + w.length ∧
        span.text = w := by
  have hwell := Automaton.wellFormed_ofRegex (.verbatim w.symbols) {}
  obtain ⟨found, hfind, hnone, hsome⟩ :=
    Automaton.find_of_le hwell (Nat.zero_le x.length) Automaton.firstOffset_zero
  refine ⟨found, hfind, ?_, ?_⟩
  · intro hfound i hi
    exact hnone hfound i _ (matchFrom_verbatim_iff.mpr ⟨hi, rfl⟩)
  · intro span hspan
    have hleft := hsome span hspan
    obtain ⟨hoccurs, hstop⟩ := matchFrom_verbatim_iff.mp hleft.isMatch
    refine ⟨hoccurs, ?_, hstop, ?_⟩
    · intro i hi
      exact hleft.leftmost i _ (matchFrom_verbatim_iff.mpr ⟨hi, rfl⟩)
    · rw [hleft.text_eq, hstop]
      exact hoccurs.2.2

end Text

/-- An escaped text is compiled, and matches the text and nothing else.  Its matches are
as long as the text and begin with it.  The full match accepts the text alone, and a
search finds the first occurrence of the text, if there is one. -/
theorem compile_escaped (w : Text) :
    ∃ p, compile w.escaped {} .unlimited = .ok p ∧
      p.pattern.root.minLength = w.symbolCount ∧
      p.pattern.root.maxLength? = some w.symbolCount ∧
      p.filter.requiredPrefix = (if w = .empty then none else some w) ∧
      (∀ x, ∃ b, p.accepts x = .ok b ∧ (b = true ↔ x = w)) ∧
      ∀ x, ∃ found, p.find x (.ofNat 0) = .ok found ∧
        (found = none ↔ ∀ i, ¬ w.Occurs x i) ∧
        ∀ span, found = some span → w.Occurs x span.start ∧
          (∀ i, w.Occurs x i → span.start ≤ i) ∧ span.stop = span.start + w.length ∧
          span.text = w := by
  have hcount : w.symbolCount = w.symbols.length := w.symbolCount_eq
  refine ⟨_, w.compile_escaped_eq_ok, ?_, ?_, w.requiredPrefix_verbatim, ?_, ?_⟩
  · rw [hcount]
    exact Regex.minLength_verbatim w.symbols
  · rw [hcount]
    exact Regex.maxLength_verbatim w.symbols
  · intro x
    obtain ⟨b, haccepts, hiff⟩ := w.verbatimPattern.acceptsFiltered_unlimited x
    refine ⟨b, haccepts, ?_⟩
    rw [hiff, ← Text.stands_whole_iff]
    exact Regex.spans_verbatim_iff rfl
  · intro x
    obtain ⟨found, hfind, hnone, hsome⟩ := w.find_verbatim x
    refine ⟨found, hfind, ⟨hnone, ?_⟩, hsome⟩
    intro hno
    cases found with
    | none => rfl
    | some span => exact absurd (hsome span rfl).1 (hno span.start)

/-- A point and half of a pair. -/
def pointAndHalf : Text := ⟨#[0x2E, 0xD83D]⟩

/-- The same units stand in front of the other half and behind it, and only there they
are a point and a half. -/
def pointsAndHalves : Text := ⟨#[0x2E, 0xD83D, 0xDE00, 0x2E, 0xD83D, 0x2E]⟩

theorem compile_escaped_pointAndHalf :
    ∃ p, compile pointAndHalf.escaped {} .unlimited = .ok p ∧
      p.accepts pointAndHalf = .ok true ∧
      p.find pointsAndHalves (.ofNat 0) = .ok (some ⟨3, 5, pointAndHalf⟩) ∧
      pointAndHalf.Occurs pointsAndHalves 3 ∧ ¬ pointAndHalf.Occurs pointsAndHalves 0 := by
  obtain ⟨p, hcompile, _, _, _, haccepts, hfind⟩ := compile_escaped pointAndHalf
  have hrun : (pointAndHalf.verbatimPattern.compile .unlimited).find pointsAndHalves (.ofNat 0) =
      .ok (some ⟨3, 5, pointAndHalf⟩) := by decide +kernel
  obtain rfl : _ = p := Except.ok.inj (pointAndHalf.compile_escaped_eq_ok.symm.trans hcompile)
  obtain ⟨b, hb, hiff⟩ := haccepts pointAndHalf
  obtain ⟨found, hfound, _, hspan⟩ := hfind pointsAndHalves
  obtain rfl : found = some ⟨3, 5, pointAndHalf⟩ := Except.ok.inj (hfound.symm.trans hrun)
  obtain ⟨hoccurs, hfirst, _⟩ := hspan _ rfl
  refine ⟨_, hcompile, ?_, hrun, hoccurs, ?_⟩
  · rw [hb, hiff.mpr rfl]
  · intro hzero
    exact absurd (hfirst 0 hzero) (by decide)

end RegexEngine
