/-
# `Unicode.foldCase` — one symbol for all forms of a symbol

Symbols that differ in case only have the same fold: a symbol folds as its small form
does, as its capital form does, and as its fold does (`foldCase_lower`, `foldCase_upper`,
`foldCase_foldCase`).  All variants of a symbol therefore fold alike
(`foldCase_of_mem_caseVariants`), and the fold is one of them.  The line feed is the only
symbol that folds to the line feed.

Three facts about the tables are behind this, and each is checked along the runs, for
every symbol that a run lists with its image; any other symbol is its own image
(`CaseTree.of_image?_eq_some`).  A capital form is its own capital form; a small form
folds as the symbol does that it belongs to; and no image is a line feed.
-/
import RegexEngine.Unicode.CaseMapping

namespace RegexEngine.Unicode

/-! ## The symbols of a run -/

namespace CaseRun

/-- The symbols that the run takes. -/
def members (r : CaseRun) : List Nat :=
  List.range' r.first ((r.last - r.first) / r.stride + 1) r.stride

/-- The symbols that the run takes, each with its image. -/
def pairs (r : CaseRun) : List (Nat × Nat) :=
  match r.image with
  | some image => r.members.map fun c => (c, image + (c - r.first))
  | none => []

theorem mem_members {r : CaseRun} {c : Nat} (h : r.covers c = true) : c ∈ r.members := by
  rw [covers, Bool.and_eq_true, Bool.and_eq_true, Nat.ble_eq, Nat.ble_eq, Nat.beq_eq] at h
  obtain ⟨⟨hfirst, hlast⟩, hstride⟩ := h
  refine List.mem_range'.mpr ⟨(c - r.first) / r.stride, ?_, ?_⟩
  · exact Nat.lt_succ_of_le (Nat.div_le_div_right (Nat.sub_le_sub_right hlast _))
  · rw [Nat.mul_div_cancel' (Nat.dvd_of_mod_eq_zero hstride)]
    omega

end CaseRun

/-- The image of a symbol is the symbol itself, or it is listed with it in a run. -/
theorem CaseTree.of_image?_eq_some {t : CaseTree} {c d : Nat} (h : t.image? c = some d) :
    d = c ∨ (c, d) ∈ t.runs.flatMap CaseRun.pairs := by
  unfold image? at h
  cases hfind : t.find? c with
  | none =>
      rw [hfind] at h
      exact Or.inl (Option.some.inj h).symm
  | some r =>
      rw [hfind] at h
      obtain ⟨hr, hc⟩ := of_find?_eq_some hfind
      obtain ⟨image, himage, rfl⟩ := Option.map_eq_some_iff.mp h
      refine Or.inr (List.mem_flatMap.mpr ⟨r, hr, ?_⟩)
      rw [CaseRun.pairs, himage]
      exact List.mem_map.mpr ⟨c, CaseRun.mem_members hc, rfl⟩

/-! ## The tables -/

/-- The capital form of a symbol, or the symbol itself where there is none. -/
def capital (c : Nat) : Nat := (upper? c).getD c

theorem foldCase_eq (c : Nat) : foldCase c = (lower? (capital c)).getD (capital c) := rfl

/-- Whether two symbols fold alike.  Most often their capital forms agree already. -/
def foldAlike (c d : Nat) : Bool :=
  Nat.beq (capital c) (capital d) || Nat.beq (foldCase c) (foldCase d)

theorem foldCase_eq_of_foldAlike {c d : Nat} (h : foldAlike c d = true) :
    foldCase c = foldCase d := by
  rw [foldAlike, Bool.or_eq_true, Nat.beq_eq, Nat.beq_eq] at h
  rcases h with h | h
  · rw [foldCase_eq, foldCase_eq, h]
  · exact h

theorem upper?_of_mem_pairs : ∀ p ∈ upperRuns.flatMap CaseRun.pairs, upper? p.2 = some p.2 := by
  decide +kernel

theorem foldAlike_of_mem_pairs :
    ∀ p ∈ lowerRuns.flatMap CaseRun.pairs, foldAlike p.2 p.1 = true := by
  decide +kernel

theorem ne_newline_of_mem_pairs :
    ∀ p ∈ lowerRuns.flatMap CaseRun.pairs ++ upperRuns.flatMap CaseRun.pairs, p.2 ≠ 0x0A := by
  decide +kernel

/-! ## Forms and folds -/

variable {c d : Nat}

/-- A capital form is its own capital form. -/
theorem upper?_idem (h : upper? c = some d) : upper? d = some d := by
  rcases CaseTree.of_image?_eq_some h with rfl | hmem
  · exact h
  · rw [upperTree, CaseTree.runs_ofRuns] at hmem
    exact upper?_of_mem_pairs (c, d) hmem

theorem foldCase_lower (h : lower? c = some d) : foldCase d = foldCase c := by
  rcases CaseTree.of_image?_eq_some h with rfl | hmem
  · rfl
  · rw [lowerTree, CaseTree.runs_ofRuns] at hmem
    exact foldCase_eq_of_foldAlike (foldAlike_of_mem_pairs (c, d) hmem)

theorem foldCase_upper (h : upper? c = some d) : foldCase d = foldCase c := by
  have hd : capital d = d := by rw [capital, upper?_idem h, Option.getD_some]
  have hc : capital c = d := by rw [capital, h, Option.getD_some]
  rw [foldCase_eq, foldCase_eq, hd, hc]

theorem foldCase_capital (c : Nat) : foldCase (capital c) = foldCase c := by
  cases h : upper? c with
  | none => rw [capital, h, Option.getD_none]
  | some d => rw [capital, h, Option.getD_some, foldCase_upper h]

theorem foldCase_foldCase (c : Nat) : foldCase (foldCase c) = foldCase c := by
  rw [← foldCase_capital c]
  cases h : lower? (capital c) with
  | none =>
      have hfold : foldCase c = capital c := by rw [foldCase_eq, h, Option.getD_none]
      rw [foldCase_capital, hfold, foldCase_capital, hfold]
  | some d =>
      have hfold : foldCase c = d := by rw [foldCase_eq, h, Option.getD_some]
      rw [foldCase_capital, hfold, foldCase_lower h, foldCase_capital, hfold]

/-- The line feed is nobody else's small or capital form. -/
theorem eq_newline_of_form (h : lower? c = some 0x0A ∨ upper? c = some 0x0A) : c = 0x0A := by
  rcases h with h | h
  · rcases CaseTree.of_image?_eq_some h with heq | hmem
    · exact heq.symm
    · rw [lowerTree, CaseTree.runs_ofRuns] at hmem
      exact absurd rfl (ne_newline_of_mem_pairs (c, 0x0A) (List.mem_append_left _ hmem))
  · rcases CaseTree.of_image?_eq_some h with heq | hmem
    · exact heq.symm
    · rw [upperTree, CaseTree.runs_ofRuns] at hmem
      exact absurd rfl (ne_newline_of_mem_pairs (c, 0x0A) (List.mem_append_right _ hmem))

/-- The line feed is the only symbol that folds to the line feed. -/
theorem foldCase_eq_newline_iff : foldCase c = 0x0A ↔ c = 0x0A := by
  constructor
  · intro hfold
    have hcapital : capital c = 0x0A := by
      cases h : lower? (capital c) with
      | none =>
          rw [foldCase_eq, h, Option.getD_none] at hfold
          exact hfold
      | some d =>
          rw [foldCase_eq, h, Option.getD_some] at hfold
          rw [hfold] at h
          exact eq_newline_of_form (Or.inl h)
    cases h : upper? c with
    | none =>
        rw [capital, h, Option.getD_none] at hcapital
        exact hcapital
    | some d =>
        rw [capital, h, Option.getD_some] at hcapital
        rw [hcapital] at h
        exact eq_newline_of_form (Or.inr h)
  · rintro rfl
    decide +kernel

/-! ## Variants -/

/-- Listing forms once each leaves out none of them. -/
theorem mem_foldl_insert {v : Nat} (forms variants : List Nat) :
    v ∈ forms.foldl (fun vs form => if vs.contains form then vs else vs ++ [form]) variants ↔
      v ∈ variants ∨ v ∈ forms := by
  induction forms generalizing variants with
  | nil => simp
  | cons form rest ih =>
      rw [List.foldl_cons, ih]
      split
      · rename_i hform
        rw [List.contains_iff_mem] at hform
        rw [List.mem_cons]
        constructor
        · exact Or.imp_right Or.inr
        · rintro (h | rfl | h)
          · exact Or.inl h
          · exact Or.inl hform
          · exact Or.inr h
      · rw [List.mem_append, List.mem_singleton, List.mem_cons, or_assoc]

/-- The variants of a symbol are the symbol, its forms, and its fold. -/
theorem mem_caseVariants {v : Nat} :
    v ∈ caseVariants c ↔ v = c ∨ lower? c = some v ∨ upper? c = some v ∨ v = foldCase c := by
  rw [caseVariants, mem_foldl_insert, List.mem_singleton, List.mem_append, caseForms,
    List.mem_append, Option.mem_toList, Option.mem_toList, List.mem_singleton, or_assoc]

theorem mem_caseVariants_self (c : Nat) : c ∈ caseVariants c := mem_caseVariants.mpr (Or.inl rfl)

theorem foldCase_mem_caseVariants (c : Nat) : foldCase c ∈ caseVariants c :=
  mem_caseVariants.mpr (Or.inr (Or.inr (Or.inr rfl)))

/-- All variants of a symbol fold alike. -/
theorem foldCase_of_mem_caseVariants {v : Nat} (h : v ∈ caseVariants c) :
    foldCase v = foldCase c := by
  rcases mem_caseVariants.mp h with h | h | h | h
  · rw [h]
  · exact foldCase_lower h
  · exact foldCase_upper h
  · rw [h, foldCase_foldCase]

end RegexEngine.Unicode
