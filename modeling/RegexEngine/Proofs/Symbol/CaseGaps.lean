/-
# `SymbolClass.opensAt_iff` — where gaps open without regard to case

Whether a gap opens (`SymbolClass.OpensAt`) depends on the symbols at its start only.
Two kinds of stretches open the gaps that begin shortly in front of them or inside them.

    stretch      what it is                                   opens gaps that begin
    bare         no run of the case mappings reaches into it  up to its last symbol
    cased        it has all variants of its first symbol      up to its first symbol

The stretches listed here open every gap but those that begin at the start of one of
the two blocks of Cherokee letters.  Each of these letters has its other form in the
other block, and one block is longer than what is tried of a gap.
-/
import RegexEngine.Proofs.Symbol.Sampling

namespace RegexEngine

namespace Unicode

/-- No run of the case mappings reaches into the stretch. -/
def Bare (q : SymbolRange) : Prop :=
  ∀ r ∈ lowerRuns ++ upperRuns, q.last < r.first ∨ r.last < q.first

/-- The stretch has all variants of its first symbol, and is tried as a whole if it is
tried from its first symbol on. -/
def Cased (q : SymbolRange) : Prop :=
  q.last < q.first + SymbolClass.gapProbes ∧ ∀ v ∈ caseVariants q.first, q.contains v = true

instance : DecidablePred Bare := fun q =>
  decidable_of_iff
    ((lowerRuns ++ upperRuns).all fun r => Nat.blt q.last r.first || Nat.blt r.last q.first)
    (by simp only [Bare, List.all_eq_true, Bool.or_eq_true, Nat.blt_eq])

instance : DecidablePred Cased := fun _ => inferInstanceAs (Decidable (_ ∧ _))

/-- All that is tried of a gap that begins here are Cherokee letters. -/
def Crowded (g : Nat) : Prop := (0x13A0 ≤ g ∧ g ≤ 0x13B6) ∨ (0xAB70 ≤ g ∧ g ≤ 0xAB80)

/-! ## Symbols without case -/

variable {c : Nat} {q : SymbolRange}

/-- A symbol that no run takes is its own image. -/
theorem CaseTree.image?_eq_self {t : CaseTree} (h : ∀ r ∈ t.runs, c < r.first ∨ r.last < c) :
    t.image? c = some c := by
  cases hfind : t.find? c with
  | none => rw [CaseTree.image?, hfind]
  | some r =>
      obtain ⟨hmem, hcovers⟩ := CaseTree.of_find?_eq_some hfind
      rw [CaseRun.covers, Bool.and_eq_true, Bool.and_eq_true, Nat.ble_eq, Nat.ble_eq] at hcovers
      have hout := h r hmem
      omega

/-- A symbol of a bare stretch has no variant but itself. -/
theorem caseVariants_of_bare (h : Bare q) (hc : q.first ≤ c ∧ c ≤ q.last) :
    caseVariants c = [c] := by
  have hruns : ∀ r ∈ lowerRuns ++ upperRuns, c < r.first ∨ r.last < c := by
    intro r hr
    have hout := h r hr
    omega
  have hlower : lower? c = some c := CaseTree.image?_eq_self fun r hr =>
    hruns r (List.mem_append_left _ (CaseTree.runs_ofRuns lowerRuns ▸ hr))
  have hupper : upper? c = some c := CaseTree.image?_eq_self fun r hr =>
    hruns r (List.mem_append_right _ (CaseTree.runs_ofRuns upperRuns ▸ hr))
  have hfold : foldCase c = c := by
    rw [foldCase, hupper, Option.getD_some, hlower, Option.getD_some]
  rw [caseVariants, caseForms, hlower, hupper, hfold]
  simp

end Unicode

namespace SymbolClass

open Unicode

variable {flags : Flags} {g : Nat} {q : SymbolRange}

theorem opensAt_of_bare (h : Bare q) (hproper : q.Proper) (hfirst : q.first < g + gapProbes)
    (hlast : g ≤ q.last) : OpensAt flags g := by
  have hle : q.first ≤ q.last := hproper
  have hvariants : flags.variants (max g q.first) = [max g q.first] := by
    unfold Flags.variants
    rw [caseVariants_of_bare h ⟨Nat.le_max_right _ _, by omega⟩, ite_self]
  have hpos : 0 < gapProbes := by decide
  refine ⟨max g q.first, Nat.le_max_left _ _, by omega, ?_⟩
  intro v hv
  rw [hvariants, List.mem_singleton] at hv
  omega

theorem opensAt_of_cased (h : Cased q) (hfirst : g ≤ q.first) (hlast : q.last < g + gapProbes) :
    OpensAt flags g := by
  have hkeeps : ∀ v ∈ flags.variants q.first, g ≤ v ∧ v < g + gapProbes := by
    intro v hv
    have hin : q.first ≤ v ∧ v ≤ q.last := by
      unfold Flags.variants at hv
      split at hv
      · exact SymbolRange.contains_iff.mp (h.2 v hv)
      · rw [List.mem_singleton.mp hv]
        exact SymbolRange.contains_iff.mp (h.2 _ (mem_caseVariants_self _))
    omega
  obtain ⟨_, hlt⟩ := hkeeps _ (flags.mem_variants_self _)
  exact ⟨q.first, hfirst, hlt, hkeeps⟩

/-! ## The stretches -/

/-- Bare stretches that are worth a stop. -/
def bareStretches : List SymbolRange := [
  ⟨0x0000, 0x0040⟩, ⟨0x007B, 0x00B4⟩, ⟨0x0255, 0x0255⟩, ⟨0x0293, 0x029C⟩, ⟨0x029F, 0x0344⟩,
  ⟨0x0380, 0x0385⟩, ⟨0x03FC, 0x03FC⟩, ⟨0x0557, 0x0560⟩, ⟨0x0588, 0x109F⟩, ⟨0x10CE, 0x10CF⟩,
  ⟨0x1100, 0x139F⟩, ⟨0x13F6, 0x13F7⟩, ⟨0x13FE, 0x1C7F⟩, ⟨0x1CBB, 0x1CBC⟩, ⟨0x1CC0, 0x1D78⟩,
  ⟨0x1D8F, 0x1DFF⟩, ⟨0x1FFD, 0x2125⟩, ⟨0x214F, 0x215F⟩, ⟨0x2185, 0x24B5⟩, ⟨0x24EA, 0x2BFF⟩,
  ⟨0x2CE4, 0x2CEA⟩, ⟨0x2D28, 0x2D2C⟩, ⟨0x2D2E, 0xA63F⟩, ⟨0xA66E, 0xA67F⟩, ⟨0xA69C, 0xA721⟩,
  ⟨0xA7DD, 0xA7F4⟩, ⟨0xA7F7, 0xAB52⟩, ⟨0xAB54, 0xAB6F⟩, ⟨0xABC0, 0xFAFF⟩, ⟨0xFB18, 0xFF20⟩,
  ⟨0xFF5B, 0x103FF⟩, ⟨0x10450, 0x104AF⟩, ⟨0x104D4, 0x104D7⟩, ⟨0x104FC, 0x1056F⟩,
  ⟨0x105A2, 0x105A2⟩, ⟨0x105BD, 0x10C7F⟩, ⟨0x10CB3, 0x10CBF⟩, ⟨0x10CF3, 0x10D4F⟩,
  ⟨0x10D86, 0x1189F⟩, ⟨0x118E0, 0x16E3F⟩, ⟨0x16E80, 0x16E9F⟩, ⟨0x16ED4, 0x1E8FF⟩,
  ⟨0x1E944, 0x10FFFF⟩]

/-- Cased stretches where bare ones are far apart. -/
def casedStretches : List SymbolRange := [
  ⟨0x00DF, 0x00DF⟩, ⟨0x011E, 0x011F⟩, ⟨0x015C, 0x015D⟩, ⟨0x0198, 0x0199⟩, ⟨0x01D7, 0x01D8⟩,
  ⟨0x0216, 0x0217⟩, ⟨0x03B0, 0x03B0⟩, ⟨0x03EE, 0x03EF⟩, ⟨0x041C, 0x043C⟩, ⟨0x042F, 0x044F⟩,
  ⟨0x046E, 0x046F⟩, ⟨0x04AC, 0x04AD⟩, ⟨0x04EA, 0x04EB⟩, ⟨0x0528, 0x0529⟩, ⟨0x1E3E, 0x1E3F⟩,
  ⟨0x1E7C, 0x1E7D⟩, ⟨0x1EBA, 0x1EBB⟩, ⟨0x1EF8, 0x1EF9⟩, ⟨0x1F30, 0x1F38⟩, ⟨0x1F67, 0x1F6F⟩,
  ⟨0x1FA7, 0x1FA7⟩, ⟨0x1FE7, 0x1FE7⟩, ⟨0x2C0F, 0x2C3F⟩, ⟨0x2C1F, 0x2C4F⟩, ⟨0x2C2F, 0x2C5F⟩,
  ⟨0x2C6B, 0x2C6C⟩, ⟨0x2CAA, 0x2CAB⟩, ⟨0xA760, 0xA761⟩, ⟨0xA79E, 0xA79F⟩, ⟨0x10417, 0x1043F⟩,
  ⟨0x118BF, 0x118DF⟩, ⟨0x16E5F, 0x16E7F⟩, ⟨0x1E91D, 0x1E93F⟩]

theorem bare_of_mem : ∀ q ∈ bareStretches, Bare q ∧ q.Proper := by decide +kernel

theorem cased_of_mem : ∀ q ∈ casedStretches, Cased q := by decide +kernel

/-- Where the gaps begin that a bare stretch opens. -/
def openedByBare (q : SymbolRange) : SymbolRange := ⟨q.first + 1 - gapProbes, q.last⟩

/-- Where the gaps begin that a cased stretch opens. -/
def openedByCased (q : SymbolRange) : SymbolRange := ⟨q.last + 1 - gapProbes, q.first⟩

/-- Where the gaps begin that some stretch opens. -/
def opened : Array SymbolRange :=
  (bareStretches.map openedByBare ++ casedStretches.map openedByCased).toArray

/-- The stretches leave out the two blocks of Cherokee letters. -/
theorem normalize_opened :
    SymbolRange.normalize opened = #[⟨0, 0x139F⟩, ⟨0x13B7, 0xAB6F⟩, ⟨0xAB81, 0x10FFFF⟩] := by
  decide +kernel

theorem opensAt_of_opened (h : SymbolRange.Holds opened.toList g) : OpensAt flags g := by
  obtain ⟨r, hr, hg⟩ := h
  rw [SymbolRange.contains_iff] at hg
  rcases List.mem_append.mp hr with hr | hr
  · obtain ⟨q, hq, rfl⟩ := List.mem_map.mp hr
    obtain ⟨hbare, hproper⟩ := bare_of_mem q hq
    have hfirst : q.first + 1 - gapProbes ≤ g := hg.1
    exact opensAt_of_bare hbare hproper (by omega) hg.2
  · obtain ⟨q, hq, rfl⟩ := List.mem_map.mp hr
    have hlast : q.last + 1 - gapProbes ≤ g := hg.1
    exact opensAt_of_cased (cased_of_mem q hq) hg.2 (by omega)

/-- Every gap opens that does not begin with Cherokee letters. -/
theorem opensAt_of_not_crowded (h : ¬ Crowded g) : OpensAt flags g := by
  by_cases hlast : g ≤ Symbol.last
  · refine opensAt_of_opened (SymbolRange.holds_normalize.mp ?_)
    have hle : g ≤ 0x10FFFF := hlast
    unfold Crowded at h
    rw [normalize_opened, SymbolRange.holds_cons, SymbolRange.holds_cons, SymbolRange.holds_cons]
    dsimp only
    omega
  · -- No symbol is left, and the case mappings have nothing to say.
    have hruns : ∀ r ∈ lowerRuns ++ upperRuns, r.last ≤ Symbol.last := by decide +kernel
    have hbare : Bare (.single g) := fun r hr =>
      Or.inr (Nat.lt_of_le_of_lt (hruns r hr) (Nat.lt_of_not_le hlast))
    exact opensAt_of_bare hbare (Nat.le_refl g) (Nat.lt_add_of_pos_right (by decide))
      (Nat.le_refl g)

/-- The other forms of the Cherokee capitals lie behind all of them that are tried. -/
theorem exists_variant_behind : ∀ c ∈ List.range' 0x13A0 86,
    ∃ v ∈ caseVariants c, 0x13F6 ≤ v := by
  decide +kernel

/-- The other forms of the small Cherokee letters lie in front of all of them. -/
theorem exists_variant_in_front : ∀ c ∈ List.range' 0xAB70 80,
    ∃ v ∈ caseVariants c, v < 0xAB70 := by
  decide +kernel

/-- Without regard to case, a gap fails to open exactly if all that is tried of it are
Cherokee letters. -/
theorem opensAt_iff (h : flags.caseInsensitive = true) : OpensAt flags g ↔ ¬ Crowded g := by
  refine ⟨?_, opensAt_of_not_crowded⟩
  rintro ⟨c, hle, hlt, hkeeps⟩ hcrowded
  have hprobes : gapProbes = 64 := rfl
  rw [Flags.variants, h] at hkeeps
  rcases hcrowded with ⟨hfirst, hlast⟩ | ⟨hfirst, hlast⟩
  · obtain ⟨v, hv, hbehind⟩ := exists_variant_behind c (List.mem_range'_1.mpr ⟨by omega, by omega⟩)
    have := hkeeps v hv
    omega
  · obtain ⟨v, hv, hfront⟩ := exists_variant_in_front c (List.mem_range'_1.mpr ⟨by omega, by omega⟩)
    have := hkeeps v hv
    omega

end SymbolClass

end RegexEngine
