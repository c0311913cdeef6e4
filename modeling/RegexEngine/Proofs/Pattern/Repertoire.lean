/-
# `Automaton.sorted_of_compile` — a pattern names symbols

The symbols of a source are symbols, and a pattern names no others.  A literal is one of
them, or what an escape stands for; a range is written by its ends, which are put in
order, or it is one of a shorthand (`Derives.names`).  Normalizing a set adds nothing:
the canonical form of its ranges holds what the ranges hold, and the fold of a symbol is
in the tables or the symbol itself (`foldCase_le_last`).

So the sets of a compiled automaton are as matching expects them.
-/
import RegexEngine.Proofs.Automaton.Emptiness
import RegexEngine.Proofs.Match.LinearWork

namespace RegexEngine

namespace Unicode

theorem le_last_of_mem_pairs :
    ∀ p ∈ lowerRuns.flatMap CaseRun.pairs ++ upperRuns.flatMap CaseRun.pairs,
      p.2 ≤ Symbol.last := by
  decide +kernel

variable {c d : Nat}

/-- The forms of a symbol are symbols. -/
theorem le_last_of_form (hc : c ≤ Symbol.last) (h : lower? c = some d ∨ upper? c = some d) :
    d ≤ Symbol.last := by
  rcases h with h | h
  · rcases CaseTree.of_image?_eq_some h with rfl | hmem
    · exact hc
    · rw [lowerTree, CaseTree.runs_ofRuns] at hmem
      exact le_last_of_mem_pairs (c, d) (List.mem_append_left _ hmem)
  · rcases CaseTree.of_image?_eq_some h with rfl | hmem
    · exact hc
    · rw [upperTree, CaseTree.runs_ofRuns] at hmem
      exact le_last_of_mem_pairs (c, d) (List.mem_append_right _ hmem)

theorem foldCase_le_last (hc : c ≤ Symbol.last) : foldCase c ≤ Symbol.last := by
  have hcapital : capital c ≤ Symbol.last := by
    rw [capital]
    cases h : upper? c with
    | none => exact hc
    | some d => exact le_last_of_form hc (.inr h)
  rw [foldCase_eq]
  generalize capital c = e at hcapital
  cases h : lower? e with
  | none => exact hcapital
  | some d => exact le_last_of_form hcapital (.inl h)

end Unicode

/-! ## Sets -/

namespace SymbolRange

/-- The range is written from a symbol to a symbol that is not in front of it. -/
def Names (r : SymbolRange) : Prop := r.Proper ∧ r.last ≤ Symbol.last

theorem names_single {c : Nat} (hc : c ≤ Symbol.last) : (single c).Names := ⟨Nat.le_refl c, hc⟩

instance : DecidablePred Names := fun r =>
  inferInstanceAs (Decidable (r.Proper ∧ r.last ≤ Symbol.last))

/-- The canonical form of ranges that end at a symbol end at a symbol. -/
theorem last_le_of_mem_normalize {rs : Array SymbolRange} (h : ∀ r ∈ rs.toList, r.Names)
    {s : SymbolRange} (hs : s ∈ (normalize rs).toList) : s.last ≤ Symbol.last := by
  have hproper : s.first ≤ s.last :=
    (canonical_normalize fun r hr => (h r hr).1).proper s hs
  obtain ⟨r, hr, hlast⟩ :=
    holds_normalize.mp ⟨s, hs, contains_iff.mpr ⟨hproper, Nat.le_refl s.last⟩⟩
  exact Nat.le_trans (contains_iff.mp hlast).2 (h r hr).2

end SymbolRange

namespace SymbolSet

/-- The set is written with symbols. -/
def Names : SymbolSet → Prop
  | .single c => c ≤ Symbol.last
  | .any => True
  | .among k => ∀ r ∈ k.ranges.toList, r.Names

instance : DecidablePred Names
  | .single c => inferInstanceAs (Decidable (c ≤ Symbol.last))
  | .any => inferInstanceAs (Decidable True)
  | .among k => inferInstanceAs (Decidable (∀ r ∈ k.ranges.toList, r.Names))

/-- The form of a set that matching uses is as matching expects it. -/
theorem Names.normalize {s : SymbolSet} (h : s.Names) (flags : Flags) :
    (s.normalize flags).Separated ∧ (s.normalize flags).Within := by
  cases s with
  | single c =>
      refine ⟨trivial, ?_⟩
      show flags.canonical c ≤ Symbol.last
      unfold Flags.canonical
      split
      · exact Unicode.foldCase_le_last h
      · exact h
  | any => exact ⟨trivial, trivial⟩
  | among k =>
      have hnames : ∀ r ∈ k.ranges.toList, r.Names := h
      exact ⟨(SymbolRange.canonical_normalize fun r hr => (hnames r hr).1).separated,
        fun r hr => SymbolRange.last_le_of_mem_normalize hnames hr⟩

end SymbolSet

/-! ## Patterns -/

theorem Escape.Means.names {c : Nat} {e : Escape} (h : Escape.Means c e) (hc : c ≤ Symbol.last) :
    e.toSet.Names := by
  cases h with
  | name he =>
      have hall : ∀ p ∈ Escape.named, p.2.toSet.Names := by decide
      exact hall _ he
  | itself _ => exact hc

namespace Pattern

variable {cs : List Nat}

/-- What the member of a class names. -/
theorem Member.names {m : ClassMember} (h : Member cs m) (hcs : ∀ c ∈ cs, c ≤ Symbol.last) :
    match m with
    | .symbol c => c ≤ Symbol.last
    | .shorthand ranges => ∀ r ∈ ranges.toList, r.Names := by
  cases h with
  | plain _ => exact hcs _ List.mem_cons_self
  | escape hmeans | shorthand hmeans =>
      exact hmeans.names (hcs _ (List.mem_cons_of_mem _ List.mem_cons_self))

theorem Members.names {first : Bool} {ranges : List SymbolRange} (h : Members first cs ranges)
    (hcs : ∀ c ∈ cs, c ≤ Symbol.last) : ∀ r ∈ ranges, r.Names := by
  induction h with
  | close => exact List.forall_mem_nil _
  | single _ hmember _ _ ih =>
      obtain ⟨hw, hrest⟩ := List.forall_mem_append.mp hcs
      exact List.forall_mem_cons.mpr ⟨SymbolRange.names_single (hmember.names hw), ih hrest⟩
  | range _ _ _ hhigh hle _ ih =>
      obtain ⟨_, hrest⟩ := List.forall_mem_append.mp hcs
      obtain ⟨hv, hrest⟩ := List.forall_mem_append.mp (List.forall_mem_cons.mp hrest).2
      exact List.forall_mem_cons.mpr ⟨⟨hle, hhigh.names hv⟩, ih hrest⟩
  | shorthand hmember _ ih =>
      obtain ⟨hw, hrest⟩ := List.forall_mem_append.mp hcs
      exact List.forall_mem_append.mpr ⟨hmember.names hw, ih hrest⟩

theorem ClassBody.names {k : SymbolClass} (h : ClassBody cs k) (hcs : ∀ c ∈ cs, c ≤ Symbol.last) :
    ∀ r ∈ k.ranges.toList, r.Names := by
  cases h with
  | positive _ hmembers => exact hmembers.names hcs
  | negative hmembers => exact hmembers.names (List.forall_mem_cons.mp hcs).2

/-- The sets of a phrase are written with symbols if the phrase is. -/
theorem Derives.names {phrase : Phrase} {budget : Nat} {r : Regex}
    (h : Derives phrase budget cs r) (hcs : ∀ c ∈ cs, c ≤ Symbol.last) :
    ∀ s ∈ r.sets, s.Names := by
  induction h with
  | any => exact List.forall_mem_singleton.mpr trivial
  | start | stop | empty => exact List.forall_mem_nil _
  | group _ ih =>
      exact ih (List.forall_mem_append.mp (List.forall_mem_cons.mp hcs).2).1
  | symbolClass hbody =>
      exact List.forall_mem_singleton.mpr (hbody.names (List.forall_mem_cons.mp hcs).2)
  | escape hmeans =>
      have hc := (List.forall_mem_cons.mp (List.forall_mem_cons.mp hcs).2).1
      exact List.forall_mem_singleton.mpr (hmeans.names hc)
  | literal _ => exact List.forall_mem_singleton.mpr (hcs _ List.mem_cons_self)
  | once _ ih | single _ ih | branch _ ih | alternation _ ih => exact ih hcs
  | quantified q _ _ ih =>
      have hsets : ∀ r : Regex, (q.apply r).sets = r.sets := fun r => by cases q <;> rfl
      rw [hsets]
      exact ih (List.forall_mem_append.mp hcs).1
  | append _ _ ihl ihr =>
      obtain ⟨hl, hr⟩ := List.forall_mem_append.mp hcs
      exact List.forall_mem_append.mpr ⟨ihl hl, ihr hr⟩
  | bar _ _ ihl ihr =>
      obtain ⟨hl, hr⟩ := List.forall_mem_append.mp hcs
      exact List.forall_mem_append.mpr ⟨ihl hl, ihr (List.forall_mem_cons.mp hr).2⟩

end Pattern

variable {source : Text} {flags : Flags} {limits : Limits} {p : Compiled}

/-- A pattern that compiles names symbols only. -/
theorem names_of_compile (h : compile source flags limits = .ok p) :
    ∀ s ∈ p.pattern.root.sets, s.Names := by
  rw [compile, Pattern.parse] at h
  split at h
  · cases h
  · rename_i r hparse
    cases h
    exact (Pattern.derives_of_parseRegex hparse).names fun c hc => Text.le_last_of_mem_symbols hc

theorem pattern_automaton_of_compile (h : compile source flags limits = .ok p) :
    p.automaton = p.pattern.automaton := by
  cases hparse : Pattern.parse source flags with
  | error e =>
      rw [compile, hparse] at h
      cases h
  | ok pattern =>
      rw [compile, hparse] at h
      cases h
      rfl

/-- The sets of a compiled automaton are as matching expects them. -/
theorem sorted_of_compile (h : compile source flags limits = .ok p) : p.automaton.Sorted := by
  intro q tr htr
  rw [pattern_automaton_of_compile h] at htr
  cases tr with
  | epsilon t => trivial
  | assert anchor t => trivial
  | symbol s t =>
      obtain ⟨w, hw, rfl⟩ := Automaton.exists_set_of_mem_ofRegex htr
      exact (names_of_compile h w hw).normalize p.pattern.flags

end RegexEngine
