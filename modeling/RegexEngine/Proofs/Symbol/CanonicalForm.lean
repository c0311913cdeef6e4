/-
# `SymbolRange.normalize` — one list of ranges for every set of symbols

A set of symbols can be written as a list of ranges in many ways: in any order, with
ranges that overlap or touch, with ranges inside of others.  It has one canonical list
only (`Canonical.eq_of_holds`).  The first range of such a list begins with the least
symbol that the list holds, and ends in front of the least symbol behind it that the
list does not hold, because ranges that touch have been merged; the ranges that follow
hold what is left.

With this, equality of canonical forms decides whether two lists name the same symbols.
Nothing else about the lists matters, and so bringing a list into its canonical form
twice is the same as doing it once.
-/
import RegexEngine.Proofs.Symbol.Range

namespace RegexEngine.SymbolRange

variable {r s : SymbolRange} {rs ss : List SymbolRange} {c : Nat}

/-! ## A canonical list from its front -/

theorem not_holds_nil : ¬ Holds [] c := by
  rintro ⟨r, hr, _⟩
  exact List.not_mem_nil hr

theorem Canonical.tail (h : Canonical (r :: rs)) : Canonical rs where
  proper := (List.forall_mem_cons.mp h.proper).2
  apart := h.apart.tail

theorem Canonical.first_le_last (h : Canonical (r :: rs)) : r.first ≤ r.last :=
  h.proper r List.mem_cons_self

/-- Behind the first range a symbol is missing. -/
theorem Canonical.lt_of_holds_tail (h : Canonical (r :: rs)) (hc : Holds rs c) :
    r.last + 1 < c := by
  obtain ⟨s, hs, hcontains⟩ := hc
  have hapart := (List.pairwise_cons.mp h.apart).1 s hs
  exact Nat.lt_of_lt_of_le hapart (contains_iff.mp hcontains).1

/-- The first range begins with the least symbol. -/
theorem Canonical.first_le (h : Canonical (r :: rs)) (hc : Holds (r :: rs) c) : r.first ≤ c := by
  have hproper := h.first_le_last
  rcases holds_cons.mp hc with hfront | htail
  · exact hfront.1
  · have := h.lt_of_holds_tail htail
    omega

theorem Canonical.holds_first (h : Canonical (r :: rs)) : Holds (r :: rs) r.first :=
  holds_cons.mpr (.inl ⟨Nat.le_refl _, h.first_le_last⟩)

/-- The symbols behind the first range are those of the ranges that follow. -/
theorem Canonical.holds_tail_iff (h : Canonical (r :: rs)) :
    Holds rs c ↔ Holds (r :: rs) c ∧ r.last < c := by
  constructor
  · intro hc
    have hlt := h.lt_of_holds_tail hc
    exact ⟨holds_cons.mpr (.inr hc), by omega⟩
  · rintro ⟨hc, hlt⟩
    refine (holds_cons.mp hc).resolve_left fun hfront => ?_
    exact Nat.not_le.mpr hlt hfront.2

/-! ## Lists with the same symbols -/

theorem Canonical.first_eq (hr : Canonical (r :: rs)) (hs : Canonical (s :: ss))
    (h : ∀ c, Holds (r :: rs) c ↔ Holds (s :: ss) c) : r.first = s.first :=
  Nat.le_antisymm (hr.first_le ((h _).mpr hs.holds_first))
    (hs.first_le ((h _).mp hr.holds_first))

/-- A first range that begins at the same symbol ends no later: the symbol behind the
other one's end is missing from both lists. -/
theorem Canonical.last_le (hr : Canonical (r :: rs)) (hfirst : r.first = s.first)
    (h : ∀ c, Holds (s :: ss) c → Holds (r :: rs) c) : s.last ≤ r.last := by
  refine Nat.le_of_not_lt fun hlt => ?_
  have hown := hr.first_le_last
  have hnext : Holds (r :: rs) (r.last + 1) := h _ (holds_cons.mpr (.inl (by omega)))
  rcases holds_cons.mp hnext with hfront | htail
  · omega
  · exact Nat.lt_irrefl _ (hr.lt_of_holds_tail htail)

/-- A canonical list is determined by the symbols it holds. -/
theorem Canonical.eq_of_holds (hrs : Canonical rs) (hss : Canonical ss)
    (h : ∀ c, Holds rs c ↔ Holds ss c) : rs = ss := by
  induction rs generalizing ss with
  | nil =>
      cases ss with
      | nil => rfl
      | cons s ss => exact absurd ((h _).mpr hss.holds_first) not_holds_nil
  | cons r rs ih =>
      cases ss with
      | nil => exact absurd ((h _).mp hrs.holds_first) not_holds_nil
      | cons s ss =>
          have hfirst : r.first = s.first := hrs.first_eq hss h
          have hlast : r.last = s.last :=
            Nat.le_antisymm
              (hss.last_le hfirst.symm fun c => (h c).mp)
              (hrs.last_le hfirst fun c => (h c).mpr)
          have htail : ∀ c, Holds rs c ↔ Holds ss c := fun c => by
            rw [hrs.holds_tail_iff, hss.holds_tail_iff, h c, hlast]
          obtain ⟨first, last⟩ := r
          obtain rfl : first = s.first := hfirst
          obtain rfl : last = s.last := hlast
          rw [ih hrs.tail hss.tail htail]

/-! ## The canonical form -/

/-- Canonical forms agree exactly if the ranges hold the same symbols. -/
theorem normalize_eq_iff {rs ss : Array SymbolRange} (hrs : ∀ r ∈ rs.toList, r.Proper)
    (hss : ∀ r ∈ ss.toList, r.Proper) :
    normalize rs = normalize ss ↔ ∀ c, Holds rs.toList c ↔ Holds ss.toList c := by
  constructor
  · intro heq c
    rw [← holds_normalize, heq, holds_normalize]
  · intro h
    refine Array.ext' ?_
    refine (canonical_normalize hrs).eq_of_holds (canonical_normalize hss) fun c => ?_
    rw [holds_normalize, holds_normalize]
    exact h c

/-- The canonical form of proper ranges is a canonical form indeed.  Lookup in it finds
exactly the symbols of the ranges as they are written; it ascends, with a symbol missing
between any two of its ranges; and it is the same for two lists exactly if they hold the
same symbols.  So the order of the ranges, repetitions and overlaps do not matter, and
the canonical form is its own. -/
theorem normalize_canonical_form :
    ∀ rs : Array SymbolRange, (∀ r ∈ rs, r.first ≤ r.last) →
      (∀ c, covers (normalize rs) c = true ↔ ∃ r ∈ rs, r.first ≤ c ∧ c ≤ r.last) ∧
      (∀ r ∈ normalize rs, r.first ≤ r.last) ∧
      (normalize rs).toList.Pairwise (fun r s => r.last + 1 < s.first) ∧
      (∀ ss : Array SymbolRange, (∀ s ∈ ss, s.first ≤ s.last) →
        (normalize rs = normalize ss ↔
          ∀ c, (∃ r ∈ rs, r.first ≤ c ∧ c ≤ r.last) ↔ ∃ s ∈ ss, s.first ≤ c ∧ c ≤ s.last)) ∧
      (∀ ss : Array SymbolRange, (∀ r, r ∈ rs ↔ r ∈ ss) → normalize rs = normalize ss) ∧
      normalize (normalize rs) = normalize rs := by
  have hholds : ∀ (rs : Array SymbolRange) c,
      Holds rs.toList c ↔ ∃ r ∈ rs, r.first ≤ c ∧ c ≤ r.last := fun rs c => by
    simp only [Holds, Array.mem_toList_iff, contains_iff]
  have hproper : ∀ rs : Array SymbolRange,
      (∀ r ∈ rs, r.first ≤ r.last) → ∀ r ∈ rs.toList, r.Proper :=
    fun rs h r hr => h r (Array.mem_toList_iff.mp hr)
  intro rs hrs
  have hcanonical := canonical_normalize (hproper rs hrs)
  refine ⟨fun c => ?_, fun r hr => ?_, hcanonical.apart, fun ss hss => ?_, fun ss hmem => ?_, ?_⟩
  · rw [covers_normalize, hholds]
  · exact hcanonical.proper r (Array.mem_toList_iff.mpr hr)
  · rw [normalize_eq_iff (hproper rs hrs) (hproper ss hss)]
    simp only [hholds]
  · have hss : ∀ s ∈ ss, s.first ≤ s.last := fun s hs => hrs s ((hmem s).mpr hs)
    rw [normalize_eq_iff (hproper rs hrs) (hproper ss hss)]
    simp only [hholds, hmem, implies_true]
  · exact (normalize_eq_iff hcanonical.proper (hproper rs hrs)).mpr fun c => holds_normalize

/-- Five ranges out of order, one inside of another, two that touch, and one written
twice are the same symbols as two ranges. -/
theorem normalize_overlapping :
    let rs : Array SymbolRange := #[⟨50, 60⟩, ⟨10, 40⟩, ⟨20, 30⟩, ⟨41, 45⟩, ⟨50, 60⟩]
    let ss : Array SymbolRange := #[⟨10, 45⟩, ⟨50, 60⟩]
    (∀ r ∈ rs, r.first ≤ r.last) ∧ (∀ s ∈ ss, s.first ≤ s.last) ∧
      (∀ r, r ∈ rs ↔ r ∈ rs.reverse) ∧
      (covers (normalize rs) 45 = true ↔ ∃ r ∈ rs, r.first ≤ 45 ∧ 45 ≤ r.last) ∧
      (∀ c, (∃ r ∈ rs, r.first ≤ c ∧ c ≤ r.last) ↔ ∃ s ∈ ss, s.first ≤ c ∧ c ≤ s.last) ∧
      normalize rs.reverse = ss ∧ normalize (normalize rs) = ss := by
  intro rs ss
  have hrs : ∀ r ∈ rs, r.first ≤ r.last := by decide
  have hss : ∀ s ∈ ss, s.first ≤ s.last := by decide
  have hmem : ∀ r, r ∈ rs ↔ r ∈ rs.reverse := fun r => Array.mem_reverse.symm
  obtain ⟨hcovers, -, -, hiff, horder, hidem⟩ := normalize_canonical_form rs hrs
  have hnormal : normalize rs = ss := by decide
  have hown : normalize ss = ss := by decide
  exact ⟨hrs, hss, hmem, hcovers 45, (hiff ss hss).mp (hnormal.trans hown.symm),
    (horder _ hmem).symm.trans hnormal, hidem.trans hnormal⟩

end RegexEngine.SymbolRange
