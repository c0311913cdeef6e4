/-
# What calls without ceilings answer, in terms of the expression

The automaton of an expression accepts by a path exactly what the expression spans, so
what a call looks for can be said without any automaton.  A search looks for the first
boundary from which the expression spans something, and a test asks whether there is one
(`test_ofRegex_iff`).  The full match asks whether the expression spans the whole text, and
the filter of a pattern does not change the answer (`Pattern.acceptsFiltered_unlimited`).
-/
import RegexEngine.Proofs.Match.Agreement
import RegexEngine.Proofs.Match.QuickRejection

namespace RegexEngine

variable {r : Regex} {flags : Flags} {x : Text} {f i j : Nat}

namespace Automaton

theorem matchFrom_ofRegex_iff :
    (ofRegex r flags).MatchFrom x f i j ↔ x.Boundary f i ∧ r.Spans flags x i j :=
  and_congr_right fun _ => path_ofRegex_iff r flags x i j

/-- A test is passed exactly if there is a match. -/
theorem test_spec {a : Automaton} (ha : a.WellFormed) (x : Text) :
    ∃ b, a.test x .unlimited = .ok b ∧ (b = true ↔ ∃ i j, a.MatchFrom x 0 i j) := by
  obtain ⟨found, hfind, hnone, hsome⟩ := find_of_le ha (Nat.zero_le x.length) firstOffset_zero
  refine ⟨found.isSome, ?_, ?_⟩
  · rw [test, hfind]
    rfl
  · cases found with
    | none =>
        refine iff_of_false Bool.false_ne_true ?_
        rintro ⟨i, j, hmatch⟩
        exact hnone rfl i j hmatch
    | some span => exact iff_of_true rfl ⟨_, _, (hsome span rfl).isMatch⟩

theorem test_ofRegex_iff : (ofRegex r flags).test x .unlimited = .ok true ↔
    ∃ i j, x.Boundary 0 i ∧ r.Spans flags x i j := by
  obtain ⟨b, htest, hiff⟩ := test_spec (wellFormed_ofRegex r flags) x
  simp only [matchFrom_ofRegex_iff] at hiff
  rw [htest, ← hiff]
  exact ⟨Except.ok.inj, congrArg _⟩

end Automaton

/-- Behind the filter of a pattern, the full match answers whether the expression of the
pattern spans the whole text. -/
theorem Pattern.acceptsFiltered_unlimited (p : Pattern) (x : Text) :
    ∃ b, p.automaton.acceptsFiltered x (.ofPattern p) .unlimited = .ok b ∧
      (b = true ↔ p.root.Spans p.flags x 0 x.length) := by
  obtain ⟨b, haccepts, _⟩ := Automaton.accepts_spec (Automaton.wellFormed_ofRegex p.root p.flags) x
  have hiff : b = true ↔ p.root.Spans p.flags x 0 x.length := by
    rw [← Automaton.accepts_iff_spans, haccepts]
    exact ⟨congrArg _, Except.ok.inj⟩
  by_cases hpasses : (Filter.ofPattern p).passes x = true
  · refine ⟨b, ?_, hiff⟩
    rw [Automaton.acceptsFiltered, Meter.start_unlimited]
    dsimp only
    rw [if_pos hpasses]
    exact haccepts
  · refine ⟨false, ?_, iff_of_false Bool.false_ne_true fun h => ?_⟩
    · rw [Automaton.acceptsFiltered, Meter.start_unlimited]
      dsimp only
      rw [if_neg hpasses]
    · exact hpasses (Filter.passes_of_spans h)

end RegexEngine
