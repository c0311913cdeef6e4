/-
# `SymbolSet.samples` — what samples are worth

A sample is a symbol that its set accepts (`accepts_of_mem_samples`).  This needs the
ranges of the set in order, as every lookup does, and nothing more.

Whether a set that accepts a symbol has a sample at all is a question about negated
classes only.  The probes reach every gap between the ranges but see its first symbols
only, and without regard to case each of them may be refused on account of a variant
that lies in a range.  A gap is searched in vain only if that happens to all of them.  So
it is enough that some symbol among the first of a gap keeps all its variants there
(`OpensAt`): such a symbol is accepted, whatever the ranges on both sides are.  With
regard to case every gap opens with its first symbol.
-/
import RegexEngine.Automaton.Sample
import RegexEngine.Proofs.Symbol.Range
import RegexEngine.Proofs.Unicode.Folding

namespace RegexEngine

/-! ## Variants -/

theorem Flags.mem_variants_self (flags : Flags) (c : Nat) : c ∈ flags.variants c := by
  unfold Flags.variants
  split
  · exact Unicode.mem_caseVariants_self c
  · exact List.mem_singleton_self c

/-! ## Sets in order -/

namespace SymbolSet

/-- The ranges of the set ascend, and none overlaps another. -/
def Separated : SymbolSet → Prop
  | .among k => SymbolRange.Separated k.ranges.toList
  | _ => True

/-- The set is written without anything behind the last symbol. -/
def Within : SymbolSet → Prop
  | .single c => c ≤ Symbol.last
  | .any => True
  | .among k => ∀ r ∈ k.ranges.toList, r.last ≤ Symbol.last

instance : DecidablePred Separated
  | .single _ | .any => inferInstanceAs (Decidable True)
  | .among k => inferInstanceAs (Decidable (SymbolRange.Separated k.ranges.toList))

instance : DecidablePred Within
  | .single c => inferInstanceAs (Decidable (c ≤ Symbol.last))
  | .any => inferInstanceAs (Decidable True)
  | .among k => inferInstanceAs (Decidable (∀ r ∈ k.ranges.toList, r.last ≤ Symbol.last))

end SymbolSet

namespace SymbolClass

variable {k : SymbolClass} {flags : Flags} {c g : Nat} {rs : List SymbolRange}

/-- A negated class in order takes a symbol if none of its variants lies in a range. -/
theorem accepts_iff_of_negated (hk : SymbolRange.Separated k.ranges.toList)
    (hneg : k.negated = true) {variants : List Nat} :
    k.accepts variants = true ↔
      ∀ v ∈ variants, ∀ r ∈ k.ranges.toList, ¬ (r.first ≤ v ∧ v ≤ r.last) := by
  rw [accepts, hneg]
  have hcovers : ∀ v, ¬ SymbolRange.covers k.ranges v = true ↔
      ∀ r ∈ k.ranges.toList, ¬ (r.first ≤ v ∧ v ≤ r.last) := by
    intro v
    rw [SymbolRange.covers_iff hk.ordered, SymbolRange.Holds, not_exists]
    refine forall_congr' fun r => ?_
    rw [not_and, SymbolRange.contains_iff]
  simp only [bne_iff_ne, ne_eq, Bool.true_eq, List.any_eq_true, not_exists, not_and, hcovers]

/-- A class in order that is not negated takes a symbol if some variant lies in a
range. -/
theorem accepts_iff_of_not_negated (hk : SymbolRange.Separated k.ranges.toList)
    (hneg : k.negated = false) {variants : List Nat} :
    k.accepts variants = true ↔
      ∃ v ∈ variants, ∃ r ∈ k.ranges.toList, r.first ≤ v ∧ v ≤ r.last := by
  rw [accepts, hneg, bne_iff_ne, ne_eq, Bool.false_eq, Bool.not_eq_false, List.any_eq_true]
  refine exists_congr fun v => and_congr_right fun _ => ?_
  rw [SymbolRange.covers_iff hk.ordered]
  refine exists_congr fun r => and_congr_right fun _ => ?_
  exact SymbolRange.contains_iff

/-! ## Gaps -/

/-- Near the start of a gap that begins at `g`, some symbol keeps all its variants
there. -/
def OpensAt (flags : Flags) (g : Nat) : Prop :=
  ∃ c, g ≤ c ∧ c < g + gapProbes ∧ ∀ v ∈ flags.variants c, g ≤ v ∧ v < g + gapProbes

/-- With regard to case every gap opens with its first symbol. -/
theorem opensAt_of_caseSensitive (h : flags.caseInsensitive = false) (g : Nat) :
    OpensAt flags g := by
  refine ⟨g, Nat.le_refl g, by unfold gapProbes; omega, ?_⟩
  intro v hv
  rw [Flags.variants, h] at hv
  obtain rfl : v = g := List.mem_singleton.mp hv
  exact ⟨Nat.le_refl v, by unfold gapProbes; omega⟩

theorem mem_probesFrom_cons {r : SymbolRange} :
    c ∈ probesFrom g (r :: rs) ↔
      (g ≤ c ∧ c < r.first ∧ c < g + gapProbes) ∨ c ∈ probesFrom (max g (r.last + 1)) rs := by
  rw [probesFrom, List.mem_append, List.mem_range'_1]
  refine or_congr_left ?_
  omega

/-- No probe lies behind the last symbol. -/
theorem le_last_of_mem_probesFrom (hrs : ∀ r ∈ rs, r.first ≤ Symbol.last + 1)
    (h : c ∈ probesFrom g rs) : c ≤ Symbol.last := by
  induction rs generalizing g with
  | nil => exact absurd h List.not_mem_nil
  | cons r rest ih =>
      obtain ⟨hr, hrest⟩ := List.forall_mem_cons.mp hrs
      rcases mem_probesFrom_cons.mp h with ⟨_, hlt, _⟩ | hmem
      · omega
      · exact ih hrest hmem

/-- If a gap that opens holds a symbol whose variants avoid all ranges, then one of its
probes is such a symbol as well: the symbol itself if it is near the start of the gap,
and otherwise one that keeps its variants there. -/
theorem exists_probe_of_gap {all : List SymbolRange} {bound : Nat} (hopen : OpensAt flags g)
    (hgap : ∀ v, g ≤ v → v < bound → ∀ r ∈ all, ¬ (r.first ≤ v ∧ v ≤ r.last))
    (hc : g ≤ c ∧ c < bound)
    (htakes : ∀ v ∈ flags.variants c, ∀ r ∈ all, ¬ (r.first ≤ v ∧ v ≤ r.last)) :
    ∃ d, (g ≤ d ∧ d < bound ∧ d < g + gapProbes) ∧
      ∀ v ∈ flags.variants d, ∀ r ∈ all, ¬ (r.first ≤ v ∧ v ≤ r.last) := by
  by_cases hnear : c < g + gapProbes
  · exact ⟨c, ⟨hc.1, hc.2, hnear⟩, htakes⟩
  · obtain ⟨d, hle, hlt, hkeeps⟩ := hopen
    refine ⟨d, ⟨hle, by omega, hlt⟩, ?_⟩
    intro v hv
    obtain ⟨hv1, hv2⟩ := hkeeps v hv
    exact hgap v hv1 (by omega)

/-- If every gap from `g` on opens, and some symbol from there on has variants that
avoid all ranges, then some probe is such a symbol.  The induction is on the ranges that
are left; all others lie in front of `g`. -/
theorem exists_probe {all : List SymbolRange} (hrs : SymbolRange.Separated rs)
    (hall : ∀ r ∈ all, r ∈ rs ∨ r.last < g) (hfirst : ∀ r ∈ rs, g ≤ r.first)
    (hopen : OpensAt flags g) (hopens : ∀ r ∈ rs, OpensAt flags (r.last + 1))
    (hsub : rs ⊆ all) (hc : g ≤ c ∧ c ≤ Symbol.last)
    (htakes : ∀ v ∈ flags.variants c, ∀ r ∈ all, ¬ (r.first ≤ v ∧ v ≤ r.last)) :
    ∃ d ∈ probesFrom g (rs ++ [.single (Symbol.last + 1)]),
      ∀ v ∈ flags.variants d, ∀ r ∈ all, ¬ (r.first ≤ v ∧ v ≤ r.last) := by
  induction rs generalizing g with
  | nil =>
      have hgap : ∀ v, g ≤ v → v < Symbol.last + 1 →
          ∀ r ∈ all, ¬ (r.first ≤ v ∧ v ≤ r.last) := by
        intro v hv _ r hr
        have hbefore := (hall r hr).resolve_left List.not_mem_nil
        omega
      obtain ⟨d, hd, hkeeps⟩ := exists_probe_of_gap hopen hgap (by omega) htakes
      exact ⟨d, mem_probesFrom_cons.mpr (Or.inl hd), hkeeps⟩
  | cons r rest ih =>
      obtain ⟨hr, hbehind⟩ := List.pairwise_cons.mp hrs.apart
      obtain ⟨hproper, hproperRest⟩ := List.forall_mem_cons.mp hrs.proper
      have hle : r.first ≤ r.last := hproper
      have hgr : g ≤ r.first := hfirst r List.mem_cons_self
      by_cases hfront : c < r.first
      · have hgap : ∀ v, g ≤ v → v < r.first →
            ∀ s ∈ all, ¬ (s.first ≤ v ∧ v ≤ s.last) := by
          intro v hv hvr s hs
          rcases hall s hs with hmem | hbefore
          · rcases List.mem_cons.mp hmem with rfl | hmem
            · omega
            · have := hr s hmem
              omega
          · omega
        obtain ⟨d, hd, hkeeps⟩ := exists_probe_of_gap hopen hgap ⟨hc.1, hfront⟩ htakes
        exact ⟨d, mem_probesFrom_cons.mpr (Or.inl hd), hkeeps⟩
      · -- The symbol is not in this range, so it lies behind it.
        have hself := htakes c (flags.mem_variants_self c) r (hsub List.mem_cons_self)
        have hnext : max g (r.last + 1) = r.last + 1 := by omega
        have hrest : ∀ s ∈ all, s ∈ rest ∨ s.last < r.last + 1 := by
          intro s hs
          rcases hall s hs with hmem | hbefore
          · rcases List.mem_cons.mp hmem with rfl | hmem
            · exact Or.inr (Nat.lt_succ_self _)
            · exact Or.inl hmem
          · exact Or.inr (by omega)
        obtain ⟨d, hd, hkeeps⟩ := ih (g := r.last + 1) ⟨hproperRest, hbehind⟩ hrest
          (fun s hs => hr s hs) (hopens r List.mem_cons_self)
          (fun s hs => hopens s (List.mem_cons_of_mem r hs))
          (fun s hs => hsub (List.mem_cons_of_mem r hs)) (by omega)
        refine ⟨d, mem_probesFrom_cons.mpr (Or.inr ?_), hkeeps⟩
        rw [hnext]
        exact hd

end SymbolClass

/-! ## Samples -/

namespace SymbolSet

variable {s : SymbolSet} {flags : Flags} {c : Nat}

/-- Behind every range of a negated class a gap opens. -/
def GapsOpen (flags : Flags) : SymbolSet → Prop
  | .among k => k.negated = true →
      ∀ r ∈ k.ranges.toList, SymbolClass.OpensAt flags (r.last + 1)
  | _ => True

theorem gapsOpen_of_caseSensitive (h : flags.caseInsensitive = false) (s : SymbolSet) :
    s.GapsOpen flags := by
  cases s with
  | single c => trivial
  | any => trivial
  | among k =>
      intro _ r _
      exact SymbolClass.opensAt_of_caseSensitive h _

/-- A preferred sample is a symbol. -/
theorem le_last_of_mem_preferredSamples (h : c ∈ SymbolClass.preferredSamples) :
    c ≤ Symbol.last := by
  have hall : ∀ d ∈ SymbolClass.preferredSamples, d ≤ Symbol.last := by decide
  exact hall c h

/-- The sample of a set is a symbol that the set accepts. -/
theorem accepts_of_sample? (hs : s.Separated) (hwithin : s.Within)
    (h : s.sample? flags = some c) : s.acceptsSymbol flags c = true ∧ c ≤ Symbol.last := by
  cases s with
  | single d =>
      obtain rfl : d = c := Option.some.inj h
      exact ⟨List.contains_iff_mem.mpr (flags.mem_variants_self d), hwithin⟩
  | any =>
      refine ⟨rfl, le_last_of_mem_preferredSamples ?_⟩
      exact List.mem_of_mem_head? h
  | among k =>
      have hk : SymbolRange.Separated k.ranges.toList := hs
      have hlast : ∀ r ∈ k.ranges.toList, r.last ≤ Symbol.last := hwithin
      simp only [sample?] at h
      split at h
      · rename_i d hfound
        obtain rfl : d = c := Option.some.inj h
        exact ⟨List.find?_some hfound,
          le_last_of_mem_preferredSamples (List.mem_of_find?_eq_some hfound)⟩
      · split at h
        · refine ⟨List.find?_some h, ?_⟩
          refine SymbolClass.le_last_of_mem_probesFrom ?_ (List.mem_of_find?_eq_some h)
          intro r hr
          rcases List.mem_append.mp hr with hr | hr
          · exact Nat.le_succ_of_le (Nat.le_trans (hk.proper r hr) (hlast r hr))
          · rw [List.mem_singleton.mp hr]
            exact Nat.le_refl _
        · rename_i hneg
          obtain ⟨r, hr, rfl⟩ := Option.map_eq_some_iff.mp h
          have hmem : r ∈ k.ranges.toList := Array.mem_toList_iff.mpr (Array.mem_of_getElem? hr)
          have hproper : r.first ≤ r.last := hk.proper r hmem
          refine ⟨?_, Nat.le_trans hproper (hlast r hmem)⟩
          exact (SymbolClass.accepts_iff_of_not_negated hk (Bool.eq_false_iff.mpr hneg)).mpr
            ⟨r.first, flags.mem_variants_self _, r, hmem, Nat.le_refl _, hproper⟩

/-- A set that accepts a symbol has a sample if its gaps open. -/
theorem exists_sample? (hs : s.Separated) (hopen : SymbolClass.OpensAt flags 0)
    (hopens : s.GapsOpen flags) (hc : c ≤ Symbol.last) (hacc : s.acceptsSymbol flags c = true) :
    ∃ d, s.sample? flags = some d := by
  cases s with
  | single d => exact ⟨d, rfl⟩
  | any => exact ⟨_, rfl⟩
  | among k =>
      have hk : SymbolRange.Separated k.ranges.toList := hs
      simp only [sample?]
      split
      · exact ⟨_, rfl⟩
      · split
        · rename_i hneg
          have htakes := (SymbolClass.accepts_iff_of_negated hk hneg).mp hacc
          obtain ⟨d, hd, hkeeps⟩ := SymbolClass.exists_probe hk (fun r hr => Or.inl hr)
            (fun r _ => Nat.zero_le _) hopen (hopens hneg) (List.Subset.refl _)
            ⟨Nat.zero_le c, hc⟩ htakes
          refine Option.isSome_iff_exists.mp (List.find?_isSome.mpr ⟨d, hd, ?_⟩)
          exact (SymbolClass.accepts_iff_of_negated hk hneg).mpr hkeeps
        · rename_i hneg
          obtain ⟨_, _, r, hr, _⟩ :=
            (SymbolClass.accepts_iff_of_not_negated hk (Bool.eq_false_iff.mpr hneg)).mp hacc
          have hsize : 0 < k.ranges.size := List.length_pos_of_mem hr
          exact ⟨_, by rw [Array.getElem?_eq_getElem hsize]; rfl⟩

/-- What a step is tried with is a symbol that it accepts, and a line feed where one
must follow. -/
theorem accepts_of_mem_samples {newlineOnly : Bool} (hs : s.Separated) (hwithin : s.Within)
    (h : c ∈ s.samples flags newlineOnly) :
    s.acceptsSymbol flags c = true ∧ c ≤ Symbol.last ∧
      (newlineOnly = true → c = Symbol.newline) := by
  have hnewline : s.acceptsSymbol flags Symbol.newline = true → c ∈ [Symbol.newline] →
      s.acceptsSymbol flags c = true ∧ c ≤ Symbol.last ∧
        (newlineOnly = true → c = Symbol.newline) := by
    intro htakes hc
    obtain rfl : c = Symbol.newline := List.mem_singleton.mp hc
    exact ⟨htakes, by decide, fun _ => rfl⟩
  simp only [samples] at h
  split at h
  · split at h
    · exact hnewline ‹_› h
    · exact absurd h List.not_mem_nil
  · rename_i hfree
    rcases List.mem_append.mp h with hsample | hextra
    · obtain ⟨hacc, hlast⟩ := accepts_of_sample? hs hwithin (Option.mem_toList.mp hsample)
      exact ⟨hacc, hlast, fun honly => absurd honly hfree⟩
    · split at hextra
      · rename_i hcond
        rw [Bool.and_eq_true, Bool.and_eq_true] at hcond
        exact hnewline hcond.1.2 hextra
      · exact absurd hextra List.not_mem_nil

/-- A step that accepts a line feed is tried with one, where one must follow or lines
matter. -/
theorem newline_mem_samples (newlineOnly : Bool)
    (hacc : s.acceptsSymbol flags Symbol.newline = true)
    (hlines : newlineOnly = true ∨ flags.multiline = true) :
    Symbol.newline ∈ s.samples flags newlineOnly := by
  simp only [samples, hacc]
  split
  · exact List.mem_singleton_self _
  · rename_i hfree
    rw [hlines.resolve_left hfree]
    by_cases hsample : s.sample? flags = some Symbol.newline
    · rw [hsample]
      exact List.mem_append_left _ (List.mem_singleton_self _)
    · rw [if_pos (by simpa using hsample)]
      exact List.mem_append_right _ (List.mem_singleton_self _)

end SymbolSet

end RegexEngine
