/-
# `Text.slice` — the symbols of a part

A part of a text that is cut out between two boundaries is read as the text itself is
read there (`reads_slice_iff`): no pair is cut in two at its end, and what stands in
front of its start does not matter to reading.

An offset inside a pair is no boundary of the whole text, but reading may start there
all the same.  It gives no more symbols than the whole text has
(`length_symbolsFrom_le`), as the half that is left of the pair is one symbol.

The boundaries from an offset on are also listed, in ascending order
(`Text.boundaries`), for searches that try one after the other.
-/
import RegexEngine.Proofs.Text.Writing

namespace RegexEngine

/-- Without its first unit, a sequence has no more symbols than before. -/
theorem Symbol.length_ofUnits_tail_le (u : UInt16) (us : List UInt16) :
    (ofUnits us).length ≤ (ofUnits (u :: us)).length := by
  cases us with
  | nil => exact Nat.zero_le _
  | cons v rest =>
      by_cases hpair : Surrogate.isHigh u = true ∧ Surrogate.isLow v = true
      · have hv : ∀ w ∈ rest.head?, ¬ (Surrogate.isHigh v = true ∧ Surrogate.isLow w = true) := by
          rintro w _ ⟨hhigh, _⟩
          have hlow := Surrogate.isLow_eq_false_of_isHigh hhigh
          rw [hpair.2] at hlow
          cases hlow
        rw [ofUnits_pair hpair.1 hpair.2, ofUnits_unit hv, List.length_cons, List.length_cons]
      · have hu : ∀ w ∈ (v :: rest).head?, ¬ (Surrogate.isHigh u = true ∧
            Surrogate.isLow w = true) := by
          rintro w ⟨⟩
          exact hpair
        rw [ofUnits_unit hu]
        exact Nat.le_succ _

namespace Text

variable {x : Text} {f i j k l c : Nat}

/-- From no offset on there are more symbols than in the whole text. -/
theorem length_symbolsFrom_le (x : Text) (i : Nat) : (x.symbolsFrom i).length ≤ x.symbolCount := by
  rw [symbolCount_eq]
  induction i with
  | zero => exact Nat.le_refl _
  | succ i ih =>
      refine Nat.le_trans ?_ ih
      rcases Nat.lt_or_ge i x.length with inside | hend
      · obtain ⟨u, rest, hdrop, hrest⟩ := exists_drop_units inside
        rw [symbolsFrom, symbolsFrom, hdrop, hrest]
        exact Symbol.length_ofUnits_tail_le u rest
      · rw [symbolsFrom_of_ge (Nat.le_succ_of_le hend)]
        exact Nat.zero_le _

/-! ## Parts -/

theorem length_slice (hj : j ≤ x.length) : (x.slice i j).length = j - i := by
  have hsize : min j x.units.size = j := Nat.min_eq_left hj
  show (x.units.extract i j).size = j - i
  rw [Array.size_extract, hsize]

theorem slice_length (x : Text) : x.slice 0 x.length = x :=
  congrArg Text.mk Array.extract_size

/-- The units of a part from an offset on. -/
theorem drop_slice (x : Text) (i j k : Nat) :
    (x.slice i j).units.toList.drop k = (x.units.toList.drop (i + k)).take (j - i - k) := by
  show (x.units.extract i j).toList.drop k = _
  rw [Array.toList_extract, List.extract_eq_take_drop, List.drop_take, List.drop_drop]

/-- A symbol that the part holds whole is read there as in the text. -/
theorem symbolAt_slice (hk : k < (x.slice i j).length) (inside : i + k < x.length)
    (hwhole : i + k + Symbol.width (x.symbolAt (i + k) inside) ≤ j) :
    (x.slice i j).symbolAt k hk = x.symbolAt (i + k) inside := by
  obtain ⟨u, rest, hdrop, _⟩ := exists_drop_units inside
  have hat := symbolAt_of_drop inside hdrop
  have hwidth := Symbol.width_pos (x.symbolAt (i + k) inside)
  obtain ⟨n, hn⟩ : ∃ n, j - i - k = n + 1 := ⟨j - i - k - 1, by omega⟩
  have hdrop' : (x.slice i j).units.toList.drop k = u :: rest.take n := by
    rw [drop_slice, hdrop, hn, List.take_succ_cons]
  rw [symbolAt_of_drop hk hdrop', hat, List.head?_take]
  by_cases hzero : n = 0
  · -- There is no unit behind the first one, so that one is no half of a pair.
    have hsingle : ¬ (Surrogate.isHigh u && rest.head?.any Surrogate.isLow) = true := by
      intro hpair
      rw [if_pos hpair] at hat
      rw [hat, Symbol.width_join] at hwhole
      omega
    rw [if_pos hzero, if_neg hsingle]
    simp
  · rw [if_neg hzero]

/-- Between boundaries, a part is read as the text is read there. -/
theorem reads_slice_iff (hk : x.Boundary i (i + k)) (hj : x.Boundary i j) (hlen : j ≤ x.length) :
    (x.slice i j).Reads k c l ↔ x.Reads (i + k) c (i + l) ∧ i + l ≤ j := by
  have hlength := length_slice (i := i) hlen
  constructor
  · rintro ⟨inside, hc, hl⟩
    have inside' : i + k < x.length := by omega
    have hread := reads_symbolAt inside'
    have hwhole := ((hk.of_le hj (by omega)).of_next ⟨_, hread⟩ (by omega)).le
    rw [symbolAt_slice inside inside' hwhole] at hc
    subst hc
    have hend : i + k + Symbol.width (x.symbolAt (i + k) inside') = i + l := by omega
    exact ⟨⟨inside', rfl, hend⟩, hend ▸ hwhole⟩
  · rintro ⟨⟨inside', rfl, hl⟩, hle⟩
    have hwidth := Symbol.width_pos (x.symbolAt (i + k) inside')
    have inside : k < (x.slice i j).length := by omega
    exact ⟨inside, symbolAt_slice inside inside' (hl ▸ hle), by omega⟩

/-! ## All boundaries -/

/-- The boundaries from an offset on, the end of the text included. -/
def boundaries (x : Text) (f : Nat) : List Nat :=
  if inside : f < x.length then
    have := Symbol.width_pos (x.symbolAt f inside)
    f :: x.boundaries (f + Symbol.width (x.symbolAt f inside))
  else if f = x.length then [f] else []
termination_by x.length - f

theorem mem_boundaries : i ∈ x.boundaries f ↔ f ≤ x.length ∧ x.Boundary f i := by
  fun_induction boundaries x f with
  | case1 f inside _ ih =>
      have hread := reads_symbolAt inside
      rw [List.mem_cons, ih]
      constructor
      · rintro (rfl | ⟨_, hrest⟩)
        · exact ⟨Nat.le_of_lt inside, .refl⟩
        · exact ⟨Nat.le_of_lt inside, .head ⟨_, hread⟩ hrest⟩
      · rintro ⟨_, hi⟩
        rcases Nat.eq_or_lt_of_le hi.le with heq | hlt
        · exact Or.inl heq.symm
        · exact Or.inr ⟨hread.le_length, hi.of_next ⟨_, hread⟩ hlt⟩
  | case2 outside =>
      rw [List.mem_singleton]
      constructor
      · rintro rfl
        exact ⟨Nat.le_refl _, .refl⟩
      · rintro ⟨_, hi⟩
        exact Nat.le_antisymm (hi.le_length (Nat.le_refl _)) hi.le
  | case3 f outside hne =>
      refine iff_of_false List.not_mem_nil ?_
      rintro ⟨hle, _⟩
      omega

theorem pairwise_boundaries (x : Text) (f : Nat) : (x.boundaries f).Pairwise (· < ·) := by
  fun_induction boundaries x f with
  | case1 f inside _ ih =>
      refine List.pairwise_cons.mpr ⟨?_, ih⟩
      intro i hi
      exact Nat.lt_of_lt_of_le (reads_symbolAt inside).lt (mem_boundaries.mp hi).2.le
  | case2 => exact List.pairwise_singleton _ _
  | case3 => exact .nil

end Text

end RegexEngine
