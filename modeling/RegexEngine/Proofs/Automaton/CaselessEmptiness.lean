/-
# `Automaton.isEmpty_ofRegex` — what emptiness misses without regard to case

The search for a witness finds one whenever every set has a sample.  With regard to case
every set has.  Without, a negated class has one if its gaps open, which is a matter of
where its ranges end: a gap that does not open shows nothing but Cherokee letters to the
probes (`SymbolClass.opensAt_iff`).

A class with such a gap may take symbols and have no sample.  Then an automaton is
called empty and is not (`isEmpty_ofRegex_missed`).
-/
import RegexEngine.Proofs.Automaton.Blocks
import RegexEngine.Proofs.Automaton.Emptiness
import RegexEngine.Proofs.Symbol.CaseGaps

namespace RegexEngine

/-- No gap of the class, if it is negated, shows nothing but Cherokee letters at its
start. -/
def SymbolClass.Uncrowded (k : SymbolClass) : Prop :=
  k.negated = true → ∀ q ∈ (SymbolRange.normalize k.ranges).toList, ¬ Unicode.Crowded (q.last + 1)

namespace Automaton

variable {r : Regex} {flags : Flags}

/-! ## Sets that have samples -/

/-- The set of a transition comes from a class of the expression, and its gaps open
where those of the class do. -/
theorem samplable_ofRegex (hr : r.Proper)
    (hgaps : flags.caseInsensitive = true → ∀ k, .among k ∈ r.sets → k.Uncrowded) :
    (ofRegex r flags).Samplable := by
  intro q s t c hmem hc hacc
  obtain ⟨w, hw, rfl⟩ := exists_set_of_mem_ofRegex hmem
  have hproper : w.Proper := hr.set hw
  have hstart : SymbolClass.OpensAt flags 0 :=
    SymbolClass.opensAt_of_not_crowded (by unfold Unicode.Crowded; omega)
  cases w with
  | single d => exact ⟨_, rfl⟩
  | any => exact ⟨_, rfl⟩
  | among k =>
      have hseparated : (SymbolSet.normalize flags (.among k)).Separated :=
        (SymbolRange.canonical_normalize hproper).separated
      have hopens : (SymbolSet.normalize flags (.among k)).GapsOpen flags := by
        cases hcase : flags.caseInsensitive with
        | false => exact SymbolSet.gapsOpen_of_caseSensitive hcase _
        | true =>
            intro hneg q hq
            exact SymbolClass.opensAt_of_not_crowded (hgaps hcase k hw hneg q hq)
      exact SymbolSet.exists_sample? hseparated hstart hopens hc hacc

/-- If no gap of a negated class shows nothing but Cherokee letters at its start, then an
automaton that accepts a text is not called empty. -/
theorem isEmpty_ofRegex (hr : r.Proper)
    (hgaps : flags.caseInsensitive = true → ∀ k, .among k ∈ r.sets → k.Uncrowded) {x : Text}
    (hx : (ofRegex r flags).accepts x .unlimited = .ok true) :
    (ofRegex r flags).isEmpty = false := by
  obtain ⟨node, hfound, _⟩ :=
    exists_witness? (wellFormed_ofRegex r flags) (samplable_ofRegex hr hgaps) hx
  exact isEmpty_of_witness? (witness?_of_found hfound)

/-- The class of the symbols from `g` on, as the negation of those in front of it. -/
def allFrom (g : Nat) : Regex := .symbol (.among ⟨true, #[⟨0, g - 1⟩]⟩)

/-- The gap begins with the last symbol in front of the small Cherokee letters. -/
theorem isEmpty_ofRegex_allFrom :
    (allFrom 0xAB6F).Proper ∧ (∀ k, .among k ∈ (allFrom 0xAB6F).sets → k.Uncrowded) ∧
      (ofRegex (allFrom 0xAB6F) ⟨true, false⟩).accepts (.ofSymbols [0xABC0]) .unlimited =
        .ok true ∧
      (ofRegex (allFrom 0xAB6F) ⟨true, false⟩).isEmpty = false := by
  have hproper : (allFrom 0xAB6F).Proper := by decide
  have hgaps : ∀ k, .among k ∈ (allFrom 0xAB6F).sets → k.Uncrowded := by
    intro k hk _ q hq
    obtain rfl := SymbolSet.among.inj (List.mem_singleton.mp hk)
    obtain rfl : q = ⟨0, 0xAB6E⟩ := List.mem_singleton.mp hq
    show ¬ ((0x13A0 ≤ 0xAB6F ∧ 0xAB6F ≤ 0x13B6) ∨ (0xAB70 ≤ 0xAB6F ∧ 0xAB6F ≤ 0xAB80))
    decide
  have hrun : (ofRegex (allFrom 0xAB6F) ⟨true, false⟩).accepts (.ofSymbols [0xABC0]) .unlimited =
      .ok true := by decide +kernel
  exact ⟨hproper, hgaps, hrun, isEmpty_ofRegex hproper (fun _ => hgaps) hrun⟩

/-! ## Sets without samples -/

/-- The search never leaves a state in front of a set that has no samples. -/
theorem isEmpty_symbol {s : SymbolSet}
    (h : ∀ newlineOnly, (s.normalize flags).samples flags newlineOnly = []) :
    (ofRegex (.symbol s) flags).isEmpty = true := by
  have hout : (ofRegex (.symbol s) flags).out 0 = [.symbol (s.normalize flags) 1] := rfl
  have hflags : (ofRegex (.symbol s) flags).flags = flags := rfl
  have hsilent : ∀ node m : SearchNode, node.config.state = 0 →
      m ∈ (ofRegex (.symbol s) flags).silentNodes node → m.config.state = 0 := by
    intro node m hnode hm
    rw [silentNodes, hnode, hout] at hm
    exact absurd hm List.not_mem_nil
  have hsymbol : ∀ node m : SearchNode, node.config.state = 0 →
      m ∈ (ofRegex (.symbol s) flags).symbolNodes node → m.config.state = 0 := by
    intro node m hnode hm
    obtain ⟨sample, ⟨_, s', t, htr, hsample, _⟩, _⟩ := mem_symbolNodes.mp hm
    rw [hnode, hout, List.mem_singleton] at htr
    rw [(Transition.symbol.inj htr).1, hflags, h] at hsample
    exact absurd hsample List.not_mem_nil
  cases hw : (ofRegex (.symbol s) flags).witness? with
  | none =>
      rw [isEmpty, hw]
      rfl
  | some w =>
      obtain ⟨node, hfound, _⟩ := exists_found_of_witness? hw
      obtain ⟨hstate, haccept⟩ := searchLayers_forall (P := fun node => node.config.state = 0)
        hsilent hsymbol (List.forall_mem_singleton.mpr rfl) hfound
      rw [acceptsAt, hstate] at haccept
      cases haccept

/-- Here the gap begins with the small Cherokee letters, whose capitals are all excluded.
The symbols behind them are accepted, and none of them is tried. -/
theorem isEmpty_ofRegex_missed :
    (allFrom 0xAB70).Proper ∧
      (ofRegex (allFrom 0xAB70) ⟨true, false⟩).accepts (.ofSymbols [0xABC0]) .unlimited =
        .ok true ∧
      (ofRegex (allFrom 0xAB70) ⟨true, false⟩).isEmpty = true := by
  have hnone : ∀ newlineOnly, SymbolSet.samples ⟨true, false⟩ newlineOnly
      (SymbolSet.normalize ⟨true, false⟩ (.among ⟨true, #[⟨0, 0xAB6F⟩]⟩)) = [] := by
    decide +kernel
  exact ⟨by decide, by decide +kernel, isEmpty_symbol hnone⟩

end Automaton

end RegexEngine
