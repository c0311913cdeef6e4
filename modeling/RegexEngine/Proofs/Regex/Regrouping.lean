/-
# `Pattern.built_of_regroups` — what is built does not depend on nesting

Expressions that differ in the nesting of their chains only (`Regex.Regroups`) have the
same automaton, whether it is written down at once or put together state by state, the
same bounds on the length of a match, and the same filter.  For the automaton this is a
matter of layout (`Regroups.sameLayout`), and the bounds are sums and extremes, which are
associative.

The prefix that a filter requires looks at the factors of an expression one by one, and
two factors may differ in the nesting of what is inside them.  It sees nothing of them
but symbols and anchors, which are all that `stub` keeps.
-/
import RegexEngine.Compiled
import RegexEngine.Proofs.Automaton.Assembly

namespace RegexEngine

namespace Regex

variable {r s : Regex}

/-! ## Lengths -/

theorem Regroups.minLength_eq (h : r.Regroups s) : r.minLength = s.minLength := by
  induction h with
  | concat_assoc a b c => exact Nat.add_assoc _ _ _
  | alternate_assoc a b c => exact Nat.min_assoc _ _ _
  | concat _ _ ihl ihr => simp only [minLength, ihl, ihr]
  | alternate _ _ ihl ihr => simp only [minLength, ihl, ihr]
  | plus _ ih => exact ih
  | star | optional | refl => rfl
  | symm _ ih => exact ih.symm
  | trans _ _ ihrs ihst => exact ihrs.trans ihst

theorem Regroups.maxLength?_eq (h : r.Regroups s) : r.maxLength? = s.maxLength? := by
  induction h with
  | concat_assoc a b c =>
      simp only [maxLength?]
      cases a.maxLength? <;> cases b.maxLength? <;> cases c.maxLength? <;>
        simp [Nat.add_assoc]
  | alternate_assoc a b c =>
      simp only [maxLength?]
      cases a.maxLength? <;> cases b.maxLength? <;> cases c.maxLength? <;>
        simp [Nat.max_assoc]
  | concat _ _ ihl ihr | alternate _ _ ihl ihr => simp only [maxLength?, ihl, ihr]
  | star _ ih | plus _ ih | optional _ ih => simp only [maxLength?, ih]
  | refl => rfl
  | symm _ ih => exact ih.symm
  | trans _ _ ihrs ihst => exact ihrs.trans ihst

/-! ## The literals in front -/

/-- A factor as the prefix of a pattern sees it. -/
def stub : Regex → Regex
  | .symbol s => .symbol s
  | .anchor a => .anchor a
  | _ => .empty

theorem leadingLiterals_map_stub (rs : List Regex) :
    leadingLiterals (rs.map stub) = leadingLiterals rs := by
  induction rs with
  | nil => rfl
  | cons r rest ih =>
      cases r with
      | symbol s =>
          cases s with
          | single c => simp only [List.map_cons, stub, leadingLiterals, ih]
          | any | among => rfl
      | _ => rfl

/-- A stub is a `^` exactly if it is that of a `^`. -/
theorem head?_map_stub_iff (rs : List Regex) :
    (rs.map stub).head? = some (.anchor .start) ↔ rs.head? = some (.anchor .start) := by
  cases rs with
  | nil => exact Iff.rfl
  | cons r rest => cases r <;> simp [stub]

theorem requiredSymbols_eq (r : Regex) :
    r.requiredSymbols =
      if r.factors.head? = some (.anchor .start) then leadingLiterals r.factors.tail
      else leadingLiterals r.factors := by
  unfold requiredSymbols
  split
  · rename_i rest hfactors
    simp [hfactors]
  · rename_i hfactors
    rw [if_neg]
    intro hhead
    obtain ⟨rest, hrest⟩ := List.head?_eq_some_iff.mp hhead
    exact hfactors rest hrest

/-- What is required of a text depends on the stubs of the factors. -/
theorem requiredSymbols_congr (h : r.factors.map stub = s.factors.map stub) :
    r.requiredSymbols = s.requiredSymbols := by
  have hall : leadingLiterals r.factors = leadingLiterals s.factors := by
    rw [← leadingLiterals_map_stub, h, leadingLiterals_map_stub]
  have htail : leadingLiterals r.factors.tail = leadingLiterals s.factors.tail := by
    rw [← leadingLiterals_map_stub, List.map_tail, h, ← List.map_tail, leadingLiterals_map_stub]
  have hcaret : r.factors.head? = some (.anchor .start) ↔
      s.factors.head? = some (.anchor .start) := by
    rw [← head?_map_stub_iff, h, head?_map_stub_iff]
  simp only [requiredSymbols_eq, hcaret, hall, htail]

theorem Regroups.stubs_eq (h : r.Regroups s) : r.factors.map stub = s.factors.map stub := by
  induction h with
  | concat_assoc a b c => simp only [factors_concat, List.append_assoc]
  | concat _ _ ihl ihr => simp only [factors_concat, List.map_append, ihl, ihr]
  | alternate_assoc | alternate | star | plus | optional | refl => rfl
  | symm _ ih => exact ih.symm
  | trans _ _ ihrs ihst => exact ihrs.trans ihst

end Regex

/-! ## What is built -/

theorem Automaton.ofRegex_of_regroups {r s : Regex} (h : r.Regroups s) (flags : Flags) :
    ofRegex r flags = ofRegex s flags := by
  unfold ofRegex
  simp only [h.sameLayout.blockSize, h.sameLayout.blockExit, h.sameLayout.block]

/-- Patterns that differ in the nesting of chains only have the same automaton, also if it
is put together state by state, the same bounds on the length of a match, and the same
filter. -/
theorem Pattern.built_of_regroups {p q : Pattern} (hroot : p.root.Regroups q.root)
    (hflags : p.flags = q.flags) :
    p.automaton = q.automaton ∧
      Assembly.ofRegex p.root p.flags = Assembly.ofRegex q.root q.flags ∧
      p.root.minLength = q.root.minLength ∧ p.root.maxLength? = q.root.maxLength? ∧
      Filter.ofPattern p = Filter.ofPattern q := by
  have hautomaton : Automaton.ofRegex p.root p.flags = Automaton.ofRegex q.root q.flags := by
    rw [hflags]
    exact Automaton.ofRegex_of_regroups hroot q.flags
  have hmin := hroot.minLength_eq
  have hmax := hroot.maxLength?_eq
  have hrequired := Regex.requiredSymbols_congr hroot.stubs_eq
  refine ⟨hautomaton, ?_, hmin, hmax, ?_⟩
  · rw [Assembly.ofRegex_eq, Assembly.ofRegex_eq, hautomaton]
  · simp only [Filter.ofPattern, hmin, hmax, hflags, hrequired]

/-- The pattern `^ab(c|d|e*)` with its chains nested to the left. -/
def chainsLeft : Pattern where
  source := .ofString "^ab(c|d|e*)"
  root := .concat
    (.concat (.concat (.anchor .start) (.literal 'a'.toNat)) (.literal 'b'.toNat))
    (.alternate (.alternate (.literal 'c'.toNat) (.literal 'd'.toNat))
      (.star (.literal 'e'.toNat)))
  flags := {}

/-- The same chains nested to the right. -/
def chainsRight : Pattern where
  source := .empty
  root := .concat (.anchor .start)
    (.concat (.literal 'a'.toNat) (.concat (.literal 'b'.toNat)
      (.alternate (.literal 'c'.toNat) (.alternate (.literal 'd'.toNat)
        (.star (.literal 'e'.toNat))))))
  flags := {}

theorem chainsLeft_built :
    chainsLeft.root.Regroups chainsRight.root ∧ chainsLeft.flags = chainsRight.flags ∧
      Assembly.ofRegex chainsLeft.root {} = Assembly.ofRegex chainsRight.root {} ∧
      Filter.ofPattern chainsLeft = Filter.ofPattern chainsRight := by
  have hroot : chainsLeft.root.Regroups chainsRight.root :=
    .trans (.concat_assoc _ _ _) (.trans (.concat_assoc _ _ _)
      (.concat (.refl _) (.concat (.refl _) (.concat (.refl _) (.alternate_assoc _ _ _)))))
  obtain ⟨_, hassembly, _, _, hfilter⟩ := Pattern.built_of_regroups hroot rfl
  exact ⟨hroot, rfl, hassembly, hfilter⟩

end RegexEngine
