/-
# `Text.visits` — the ways of cutting a text agree

A full match takes the symbols of a text all at once and adds their widths up, a search
reads the symbol at an offset and goes on behind it, and a filter only counts.  The three
are the same cut (`visits_eq`, `symbolCount_eq`), whatever surrogates are missing their
other half.

A text may also be cut in two first and then into symbols.  Every offset is a boundary
or the middle of a pair (`boundary_or_splitsPair`).  At a boundary nothing changes
(`symbols_slice_append`).  In the middle of a pair each half becomes a symbol, so there is
one more (`SplitsPair.symbols_slice`); the halves join nothing else, as a high surrogate
looks only behind itself for its low one.
-/
import RegexEngine.Pattern.Glyph
import RegexEngine.Proofs.Text.Occurrence

namespace RegexEngine

/-- Symbols one behind the other, each with the offset where it begins. -/
def Symbol.placed (offset : Nat) : List Nat → List (Placed Nat)
  | [] => []
  | c :: cs => ⟨offset, c⟩ :: placed (offset + width c) cs

namespace Text

/-- The symbols that are read one by one from an offset on, each with its offset. -/
def visits (x : Text) (i : Nat) : List (Placed Nat) :=
  if inside : i < x.length then
    have := Symbol.width_pos (x.symbolAt i inside)
    ⟨i, x.symbolAt i inside⟩ :: x.visits (i + Symbol.width (x.symbolAt i inside))
  else []
termination_by x.length - i

/-- The offset is in the middle of a symbol of two units. -/
def SplitsPair (x : Text) (b : Nat) : Prop :=
  ∃ i c, x.Boundary 0 i ∧ x.Reads i c (i + 2) ∧ b = i + 1

variable {x : Text} {b c i j : Nat} {cs : List Nat}

/-! ## One by one and all at once -/

theorem visits_eq (x : Text) (i : Nat) : x.visits i = Symbol.placed i (x.symbolsFrom i) := by
  fun_induction visits x i with
  | case1 i inside _ ih => rw [symbolsFrom_of_lt inside, Symbol.placed, ih]
  | case2 i outside => rw [symbolsFrom_of_ge (Nat.le_of_not_lt outside), Symbol.placed]

theorem length_placed (i : Nat) (cs : List Nat) : (Symbol.placed i cs).length = cs.length := by
  induction cs generalizing i with
  | nil => rfl
  | cons c cs ih => rw [Symbol.placed, List.length_cons, List.length_cons, ih]

/-! ## Cutting at a boundary -/

/-- Behind what stands at an offset, the text goes on with the symbols from its end. -/
theorem Stands.symbolsFrom (h : x.Stands cs i j) : x.symbolsFrom i = cs ++ x.symbolsFrom j := by
  induction cs generalizing i with
  | nil =>
      obtain rfl : i = j := h
      rfl
  | cons c cs ih =>
      obtain ⟨k, hread, hcs⟩ := h
      rw [hread.symbolsFrom, ih hcs, List.cons_append]

/-- The last part of a text has the symbols from its start on. -/
theorem symbols_slice_length (x : Text) (b : Nat) :
    (x.slice b x.length).symbols = x.symbolsFrom b := by
  have hunits := drop_slice x b x.length 0
  rw [List.drop_zero, Nat.add_zero, Nat.sub_zero,
    List.take_of_length_le (by rw [List.length_drop, Array.length_toList]; exact Nat.le_refl _)]
    at hunits
  rw [symbols, hunits, Text.symbolsFrom]

theorem symbols_slice_append (h : x.Boundary 0 b) :
    x.symbols = (x.slice 0 b).symbols ++ (x.slice b x.length).symbols := by
  obtain ⟨cs, hcs⟩ := h.exists_stands
  have hfront : (x.slice 0 b).symbols = cs :=
    Stands.symbolsFrom_slice (k := 0) .refl (h.le_length (Nat.zero_le _)) hcs
  rw [hfront, symbols_slice_length]
  exact hcs.symbolsFrom

/-! ## Cutting a pair -/

/-- Going on unit by unit, one comes to a boundary or into the middle of a pair, and from
there to its end. -/
theorem boundary_or_splitsPair (hb : b ≤ x.length) : x.Boundary 0 b ∨ x.SplitsPair b := by
  induction b with
  | zero => exact Or.inl .refl
  | succ b ih =>
      rcases ih (Nat.le_of_succ_le hb) with hbound | ⟨i, c, hi, hread, rfl⟩
      · obtain ⟨c, j, hread⟩ : ∃ c j, x.Reads b c j := ⟨_, _, reads_symbolAt hb⟩
        have hstop : j = b + Symbol.width c := by
          obtain ⟨_, _, hstop⟩ := hread
          exact hstop.symm
        have hpos := Symbol.width_pos c
        have htwo := Symbol.width_le_two c
        rcases (by omega : j = b + 1 ∨ j = b + 2) with rfl | rfl
        · exact Or.inl (hbound.tail ⟨c, hread⟩)
        · exact Or.inr ⟨b, c, hbound, hread, rfl⟩
      · exact Or.inl (hi.tail ⟨c, hread⟩)

theorem SplitsPair.not_boundary (h : x.SplitsPair b) : ¬ x.Boundary 0 b := by
  obtain ⟨i, c, hi, hread, rfl⟩ := h
  intro hbound
  have hskip := ((hi.of_le hbound (Nat.le_succ i)).of_next ⟨c, hread⟩ (Nat.lt_succ_self i)).le
  omega

/-- A symbol of two units is a pair. -/
theorem Reads.exists_pair (h : x.Reads i c (i + 2)) : ∃ u v,
    Surrogate.isHigh u = true ∧ Surrogate.isLow v = true ∧ Surrogate.join u v = c ∧
      x.units.toList.drop i = u :: v :: x.units.toList.drop (i + 2) := by
  obtain ⟨inside, rfl, hwidth⟩ := h
  obtain ⟨u, rest, hdrop, hrest⟩ := exists_drop_units inside
  have hat := symbolAt_of_drop inside hdrop
  by_cases hpair : (Surrogate.isHigh u && rest.head?.any Surrogate.isLow) = true
  · rw [if_pos hpair] at hat
    obtain ⟨hhigh, hany⟩ := Bool.and_eq_true_iff.mp hpair
    cases rest with
    | nil => cases hany
    | cons v rest =>
        have hbehind : x.units.toList.drop (i + 2) = rest := by
          rw [← List.drop_drop, hdrop]
          rfl
        exact ⟨u, v, hhigh, hany, hat.symm, by rw [hdrop, hbehind]⟩
  · rw [if_neg hpair] at hat
    rw [hat, Symbol.width_toNat] at hwidth
    omega

/-- Each half of a pair that is cut is a symbol at the end of its part, and all other symbols
stay what they are. -/
theorem SplitsPair.symbols_slice (h : x.SplitsPair b) : ∃ front back u v,
    Surrogate.isHigh u = true ∧ Surrogate.isLow v = true ∧
      x.symbols = front ++ Surrogate.join u v :: back ∧
      (x.slice 0 b).symbols = front ++ [u.toNat] ∧
      (x.slice b x.length).symbols = v.toNat :: back := by
  obtain ⟨i, c, hi, hread, rfl⟩ := h
  obtain ⟨u, v, hhigh, hlow, rfl, hdrop⟩ := hread.exists_pair
  refine ⟨(x.slice 0 i).symbols, x.symbolsFrom (i + 2), u, v, hhigh, hlow, ?_, ?_, ?_⟩
  · rw [← hread.symbolsFrom, ← symbols_slice_length]
    exact symbols_slice_append hi
  · -- The high half is no low one, so what stands in front of it does not take it.
    have hunits : ∀ j, (x.slice 0 j).units.toList = x.units.toList.take j := fun j =>
      drop_slice x 0 j 0
    have hget : x.units.toList[i]? = some u := by
      rw [← List.head?_drop, hdrop, List.head?_cons]
    have htake : x.units.toList.take (i + 1) = x.units.toList.take i ++ [u] := by
      rw [List.take_add_one, hget, Option.toList_some]
    rw [symbols, symbols, hunits, hunits, htake, Symbol.ofUnits_append]
    · rfl
    · rintro _ _ w hw ⟨_, hw'⟩
      obtain rfl : u = w := Option.some.inj hw
      rw [Surrogate.isLow_eq_false_of_isHigh hhigh] at hw'
      cases hw'
  · -- The low half is no high one, so it takes nothing of what stands behind it.
    have htail : x.units.toList.drop (i + 1) = v :: x.units.toList.drop (i + 2) := by
      rw [← List.drop_drop, hdrop]
      rfl
    rw [symbols_slice_length, symbolsFrom, htail, Symbol.ofUnits_unit]
    · rfl
    · rintro w _ ⟨hv, _⟩
      rw [Surrogate.isLow_eq_false_of_isHigh hv] at hlow
      cases hlow

theorem SplitsPair.symbolCount_slice (h : x.SplitsPair b) :
    (x.slice 0 b).symbolCount + (x.slice b x.length).symbolCount = x.symbolCount + 1 := by
  obtain ⟨front, back, u, v, _, _, hall, hfront, hback⟩ := h.symbols_slice
  simp only [symbolCount_eq, symbolsFrom_zero, hall, hfront, hback, List.length_append,
    List.length_cons, List.length_nil]
  omega

/-! ## All of them -/

/-- The symbols of a text with the offsets that their widths add up to are what is read one
by one from the start; their number is the bare count, and written they are the text.  Cut
at a boundary, the text has the symbols of its first part and then those of its second
part; every other offset is in the middle of a pair, and there a cut makes one more. -/
theorem cuts_agree (x : Text) :
    x.visits 0 = Symbol.placed 0 x.symbols ∧
    x.symbolCount = (x.visits 0).length ∧
    ofSymbols x.symbols = x ∧
    (∀ b, x.Boundary 0 b → x.symbols = (x.slice 0 b).symbols ++ (x.slice b x.length).symbols) ∧
    (∀ b ≤ x.length, ¬ x.Boundary 0 b ↔ x.SplitsPair b) ∧
    ∀ b, x.SplitsPair b →
      (x.slice 0 b).symbolCount + (x.slice b x.length).symbolCount = x.symbolCount + 1 := by
  have hvisits : x.visits 0 = Symbol.placed 0 x.symbols := x.visits_eq 0
  have hcount : x.symbolCount = (x.visits 0).length := by
    rw [hvisits, length_placed, symbolCount_eq, symbolsFrom_zero]
  refine ⟨hvisits, hcount, ofSymbols_symbols x, fun b hb => symbols_slice_append hb, ?_,
    fun b hb => hb.symbolCount_slice⟩
  intro b hb
  exact ⟨(boundary_or_splitsPair hb).resolve_left, SplitsPair.not_boundary⟩

/-- A low surrogate in front of a pair, and a high one behind it. -/
def brokenPairs : Text := ⟨#[0xDE00, 0xD83D, 0xDE00, 0xD83D]⟩

theorem brokenPairs_cuts_agree :
    brokenPairs.visits 0 = [⟨0, 0xDE00⟩, ⟨1, 0x1F600⟩, ⟨3, 0xD83D⟩] ∧
      brokenPairs.symbolCount = 3 ∧
      brokenPairs.Boundary 0 1 ∧
      brokenPairs.symbols =
        (brokenPairs.slice 0 1).symbols ++ (brokenPairs.slice 1 brokenPairs.length).symbols ∧
      ¬ brokenPairs.Boundary 0 2 ∧ brokenPairs.SplitsPair 2 ∧
      (brokenPairs.slice 0 2).symbolCount +
        (brokenPairs.slice 2 brokenPairs.length).symbolCount = 4 := by
  obtain ⟨hvisits, hcount, _, hcut, hmiddle, hmore⟩ := cuts_agree brokenPairs
  have hplaced : brokenPairs.visits 0 = [⟨0, 0xDE00⟩, ⟨1, 0x1F600⟩, ⟨3, 0xD83D⟩] :=
    hvisits.trans (by decide +kernel)
  have hthree : brokenPairs.symbolCount = 3 := hcount.trans (congrArg List.length hplaced)
  have hlow : brokenPairs.Reads 0 0xDE00 1 := ⟨by decide, by decide +kernel, by decide⟩
  have hpair : brokenPairs.Reads 1 0x1F600 3 := ⟨by decide, by decide +kernel, by decide⟩
  have hone : brokenPairs.Boundary 0 1 := .single ⟨_, hlow⟩
  have htwo : brokenPairs.SplitsPair 2 := ⟨1, _, hone, hpair, rfl⟩
  exact ⟨hplaced, hthree, hone, hcut 1 hone, (hmiddle 2 (by decide)).mpr htwo, htwo,
    (hmore 2 htwo).trans (congrArg (· + 1) hthree)⟩

end Text

end RegexEngine
