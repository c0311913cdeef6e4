/-
# `Automaton.acceptsFiltered` — the filter of a pattern changes no answer

A text that the filter of a pattern turns down is not matched by the expression of the
pattern, since the conditions of the filter are necessary ones (`passes_of_spans`).
So the filter answers in advance what the run would have answered.

A run may meet its ceiling before it has an answer, and this is what remains of it if
the filter speaks first: where the run alone ends with too many steps, the filtered
one may still answer "no" (`Spares`).  The ceiling on the length of the input is
checked in front of both.
-/
import RegexEngine.Compiled
import RegexEngine.Proofs.Automaton.Blocks
import RegexEngine.Proofs.Match.Metering
import RegexEngine.Proofs.Regex.Bounds
import RegexEngine.Proofs.Text.Writing

namespace RegexEngine

/-- Two outcomes of a call agree, but for steps that the second one has been spared. -/
structure Spares (full spared : Except LimitError Bool) : Prop where
  /-- An answer of the full call is the answer of the other. -/
  answer : ∀ b, full = .ok b → spared = .ok b
  /-- Both calls turn down the same inputs as too long. -/
  inputLimit : ∀ e, e.kind = .inputLength → (full = .error e ↔ spared = .error e)
  /-- They differ only if the full call ran out of steps where the other answers "no". -/
  differ : full ≠ spared → (∃ e, e.kind = .steps ∧ full = .error e) ∧ spared = .ok false

variable {p : Pattern} {x : Text}

theorem Spares.refl (outcome : Except LimitError Bool) : Spares outcome outcome where
  answer := fun _ h => h
  inputLimit := fun _ _ => Iff.rfl
  differ := fun h => absurd rfl h

/-- A call that would answer "no" if it had the steps is spared them. -/
theorem Spares.of_charge (m : Meter) (cost : Nat) :
    Spares ((m.charge cost).map fun _ => false) (.ok false) := by
  cases hcharge : m.charge cost with
  | ok after => exact .refl _
  | error e =>
      have hkind := Meter.kind_of_charge_eq_error hcharge
      refine ⟨?_, ?_, ?_⟩
      · intro b h
        cases h
      · intro e' hkind'
        constructor
        · intro h
          cases h
          rw [hkind] at hkind'
          cases hkind'
        · intro h
          cases h
      · intro _
        exact ⟨⟨e, hkind, rfl⟩, rfl⟩

/-- The filter of a pattern lets every text pass that its expression matches. -/
theorem Filter.passes_of_spans (h : p.root.Spans p.flags x 0 x.length) :
    (Filter.ofPattern p).passes x = true := by
  have hend : x.symbolsFrom x.length = [] := Text.symbolsFrom_of_ge (Nat.le_refl _)
  have hmin := h.minLength_le
  rw [hend, List.length_nil, Nat.add_zero] at hmin
  have hminLength : (Filter.ofPattern p).minLength.all (· ≤ x.length) = true := by
    -- The bound counts symbols, and the text has at least as many units.
    have hunits : (x.symbolsFrom 0).length ≤ x.length :=
      Text.symbolCount_eq x ▸ x.symbolCount_le_length
    show (if 0 < p.root.minLength then some p.root.minLength else none).all (· ≤ x.length) = true
    split
    · exact decide_eq_true (Nat.le_trans hmin hunits)
    · rfl
  have hprefix : (Filter.ofPattern p).requiredPrefix.all x.startsWith = true := by
    show (if p.flags.caseInsensitive || p.root.requiredSymbols.isEmpty then none
      else some (Text.ofSymbols p.root.requiredSymbols)).all x.startsWith = true
    split
    · rfl
    · rename_i hrequired
      have hcase : p.flags.caseInsensitive = false := by
        rw [Bool.or_eq_true, not_or] at hrequired
        exact Bool.eq_false_iff.mpr hrequired.1
      exact Text.startsWith_ofSymbols (h.requiredSymbols_prefix hcase)
  have hmaxLength : (Filter.ofPattern p).maxLength.all (x.symbolCount ≤ ·) = true := by
    show p.root.maxLength?.all (x.symbolCount ≤ ·) = true
    cases hn : p.root.maxLength? with
    | none => rfl
    | some n =>
        have hmax := h.le_maxLength hn
        rw [hend, List.length_nil, Nat.add_zero] at hmax
        rw [Text.symbolCount_eq]
        exact decide_eq_true hmax
  rw [Filter.passes, hminLength, hprefix, hmaxLength]
  rfl

/-- A text that the filter of a pattern turns down is refused by every run that has the
steps for it. -/
theorem Pattern.run_eq_of_not_passes (hx : ¬ (Filter.ofPattern p).passes x = true) :
    ∃ cost, Takes (p.automaton.run x) cost false := by
  obtain ⟨answer, cost, hrun⟩ := p.automaton.run_takes x
  have hfree : (Meter.mk 0 .infinity).charge cost = .ok ⟨0 + cost, .infinity⟩ :=
    Meter.charge_of_infinity rfl cost
  have hanswer : p.automaton.accepts x .unlimited = .ok answer := by
    rw [Automaton.accepts, Meter.start_unlimited]
    show (p.automaton.run x ⟨0, .infinity⟩).map (·.1) = .ok answer
    rw [hrun, hfree]
    rfl
  cases answer with
  | false => exact ⟨cost, hrun⟩
  | true => exact absurd (Filter.passes_of_spans (Automaton.accepts_iff_spans.mp hanswer)) hx

/-- The filter of a pattern changes no answer: without ceilings the filtered call
answers as the full one does, and under any ceilings it differs from it only where the
full one runs out of steps. -/
theorem Pattern.acceptsFiltered_spares (p : Pattern) (x : Text) (limits : Limits) :
    (∃ b, p.automaton.accepts x .unlimited = .ok b ∧
        p.automaton.acceptsFiltered x (.ofPattern p) .unlimited = .ok b) ∧
      Spares (p.automaton.accepts x limits)
        (p.automaton.acceptsFiltered x (.ofPattern p) limits) := by
  have hspares : ∀ limits, Spares (p.automaton.accepts x limits)
      (p.automaton.acceptsFiltered x (.ofPattern p) limits) := by
    intro limits
    rw [Automaton.accepts, Automaton.acceptsFiltered]
    cases Meter.start limits x with
    | error e => exact .refl _
    | ok meter =>
        by_cases hpasses : (Filter.ofPattern p).passes x = true
        · dsimp only
          rw [if_pos hpasses]
          exact .refl _
        · obtain ⟨cost, hrun⟩ := Pattern.run_eq_of_not_passes hpasses
          dsimp only
          rw [if_neg hpasses, hrun]
          have hmap : ((meter.charge cost).map fun m => (false, m)).map (·.1) =
              (meter.charge cost).map fun _ => false := by
            cases meter.charge cost <;> rfl
          rw [hmap]
          exact .of_charge meter cost
  obtain ⟨b, haccepts, _⟩ :=
    Automaton.accepts_spec (Automaton.wellFormed_ofRegex p.root p.flags) x
  exact ⟨⟨b, haccepts, (hspares .unlimited).answer b haccepts⟩, hspares limits⟩

/-- The pattern `^\uD83D[\uDE00-\uDE0F]?b*`.  It requires half a pair in front, with
which a text may begin that does not begin with this symbol. -/
def halfPair : Pattern where
  source := .empty
  root := .concat (.concat (.concat (.anchor .start) (.literal 0xD83D))
    (.optional (.symbol (.among ⟨false, #[⟨0xDE00, 0xDE0F⟩]⟩)))) (.star (.literal 'b'.toNat))
  flags := {}

theorem halfPair_spares :
    halfPair.automaton.accepts (.ofString "😀b") .unlimited = .ok false ∧
      halfPair.automaton.acceptsFiltered (.ofString "😀b") (.ofPattern halfPair) .unlimited =
        .ok false ∧
      Spares (.error ⟨.steps, .ofNat 0, 1⟩) (halfPair.automaton.acceptsFiltered (.ofString "b")
        (.ofPattern halfPair) ⟨.infinity, .ofNat 0⟩) := by
  have hrefused : halfPair.automaton.accepts (.ofString "😀b") .unlimited = .ok false := by
    decide +kernel
  have hstopped : halfPair.automaton.accepts (.ofString "b") ⟨.infinity, .ofNat 0⟩ =
      .error ⟨.steps, .ofNat 0, 1⟩ := by decide +kernel
  obtain ⟨_, hfree⟩ := Pattern.acceptsFiltered_spares halfPair (.ofString "😀b") .unlimited
  obtain ⟨_, hlimited⟩ :=
    Pattern.acceptsFiltered_spares halfPair (.ofString "b") ⟨.infinity, .ofNat 0⟩
  rw [hstopped] at hlimited
  exact ⟨hrefused, hfree.answer false hrefused, hlimited⟩

end RegexEngine
