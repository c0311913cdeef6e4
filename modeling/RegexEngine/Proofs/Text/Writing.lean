/-
# `Text.ofSymbols` — writing symbols and reading them back

Writing the symbols of a text gives the text back (`ofSymbols_symbols`), as every
symbol is written by the units that it was read from.

The other way round, a high surrogate in front of a low one is read as one symbol,
even if they were written as two.  Nothing else can happen: where no two symbols join
in this way (`Symbol.Apart`), reading gives back what was written
(`symbols_ofSymbols`), and in any case it gives no more symbols than were written
(`symbolCount_ofSymbols_le`).
-/
import Mathlib.Data.List.Chain
import RegexEngine.Proofs.Text.Cutting

namespace RegexEngine

namespace Surrogate

theorem isHigh_iff {u : UInt16} : isHigh u = true ↔ 0xD800 ≤ u.toNat ∧ u.toNat ≤ 0xDBFF := by
  simp [isHigh, UInt16.le_iff_toNat_le]

theorem isLow_iff {u : UInt16} : isLow u = true ↔ 0xDC00 ≤ u.toNat ∧ u.toNat ≤ 0xDFFF := by
  simp [isLow, UInt16.le_iff_toNat_le]

theorem isLow_eq_false_of_isHigh {u : UInt16} (h : isHigh u = true) : isLow u = false := by
  rw [Bool.eq_false_iff]
  intro hlow
  have := isHigh_iff.mp h
  have := isLow_iff.mp hlow
  omega

end Surrogate

namespace Symbol

/-- The symbols are a lone high surrogate and a lone low one, which would be read as
one symbol. -/
def Joins (c d : Nat) : Prop := (0xD800 ≤ c ∧ c ≤ 0xDBFF) ∧ 0xDC00 ≤ d ∧ d ≤ 0xDFFF

instance (c d : Nat) : Decidable (Joins c d) :=
  inferInstanceAs (Decidable ((0xD800 ≤ c ∧ c ≤ 0xDBFF) ∧ 0xDC00 ≤ d ∧ d ≤ 0xDFFF))

/-- No two symbols in a row would be read as one. -/
def Apart (cs : List Nat) : Prop := cs.IsChain fun c d => ¬ Joins c d

variable {c : Nat} {cs : List Nat} {u v : UInt16}

/-! ## The units of one symbol -/

theorem units_toNat (u : UInt16) : units u.toNat = [u] := by
  have hu : ¬ 0xFFFF < u.toNat := by
    have := u.toNat_lt
    omega
  rw [units, if_neg hu, UInt16.ofNat_toNat]

theorem units_join (hu : Surrogate.isHigh u = true) (hv : Surrogate.isLow v = true) :
    units (Surrogate.join u v) = [u, v] := by
  obtain ⟨hu1, hu2⟩ := Surrogate.isHigh_iff.mp hu
  obtain ⟨hv1, hv2⟩ := Surrogate.isLow_iff.mp hv
  have hwide : 0xFFFF < Surrogate.join u v := by
    unfold Surrogate.join
    omega
  have hfirst : 0xD800 + (Surrogate.join u v - 0x10000) / 0x400 = u.toNat := by
    unfold Surrogate.join
    omega
  have hsecond : 0xDC00 + (Surrogate.join u v - 0x10000) % 0x400 = v.toNat := by
    unfold Surrogate.join
    omega
  rw [units, if_pos hwide, hfirst, hsecond, UInt16.ofNat_toNat, UInt16.ofNat_toNat]

/-- A symbol is one unit, or a pair that is read as this symbol. -/
theorem units_cases (h : c ≤ last) :
    (∃ u : UInt16, units c = [u] ∧ u.toNat = c) ∨
      ∃ u v, units c = [u, v] ∧ Surrogate.isHigh u = true ∧ Surrogate.isLow v = true ∧
        Surrogate.join u v = c := by
  have hlast : c ≤ 0x10FFFF := h
  have hsize : UInt16.size = 0x10000 := rfl
  by_cases hwide : 0xFFFF < c
  · have hu : (UInt16.ofNat (0xD800 + (c - 0x10000) / 0x400)).toNat =
        0xD800 + (c - 0x10000) / 0x400 := UInt16.toNat_ofNat_of_lt' (by omega)
    have hv : (UInt16.ofNat (0xDC00 + (c - 0x10000) % 0x400)).toNat =
        0xDC00 + (c - 0x10000) % 0x400 := UInt16.toNat_ofNat_of_lt' (by omega)
    refine Or.inr ⟨_, _, if_pos hwide, Surrogate.isHigh_iff.mpr ?_, Surrogate.isLow_iff.mpr ?_, ?_⟩
    · rw [hu]
      omega
    · rw [hv]
      omega
    · unfold Surrogate.join
      rw [hu, hv]
      omega
  · exact Or.inl ⟨_, if_neg hwide, UInt16.toNat_ofNat_of_lt' (by omega)⟩

/-- A symbol below the surrogates is a unit that takes part in no pair. -/
theorem exists_unit_of_lt (h : c < 0xD800) : ∃ u : UInt16, units c = [u] ∧ u.toNat = c ∧
    Surrogate.isHigh u = false ∧ Surrogate.isLow u = false := by
  have hu : (UInt16.ofNat c).toNat = c := UInt16.toNat_ofNat_of_lt' (Nat.lt_trans h (by decide))
  refine ⟨UInt16.ofNat c, if_neg (by omega), hu, ?_, ?_⟩
  · rw [Bool.eq_false_iff, Ne, Surrogate.isHigh_iff]
    omega
  · rw [Bool.eq_false_iff, Ne, Surrogate.isLow_iff]
    omega

/-! ## Writing what has been read -/

theorem flatMap_units_ofUnits (us : List UInt16) : (ofUnits us).flatMap units = us := by
  fun_induction ofUnits us with
  | case1 => rfl
  | case2 u => rw [List.flatMap_singleton, units_toNat]
  | case3 u v rest hpair ih =>
      obtain ⟨hu, hv⟩ := Bool.and_eq_true_iff.mp hpair
      rw [List.flatMap_cons, units_join hu hv, ih]
      rfl
  | case4 u v rest hpair ih =>
      rw [List.flatMap_cons, units_toNat, ih]
      rfl

/-- No unit is part of two symbols. -/
theorem length_ofUnits_le (us : List UInt16) : (ofUnits us).length ≤ us.length := by
  fun_induction ofUnits us with
  | case1 => exact Nat.le_refl 0
  | case2 u => exact Nat.le_refl 1
  | case3 u v rest hpair ih => exact Nat.le_succ_of_le (Nat.succ_le_succ ih)
  | case4 u v rest hpair ih => exact Nat.succ_le_succ ih

/-- What is read is a symbol. -/
theorem le_last_of_mem_ofUnits {us : List UInt16} (h : c ∈ ofUnits us) : c ≤ last := by
  fun_induction ofUnits us with
  | case1 => exact absurd h List.not_mem_nil
  | case2 u =>
      have hu := u.toNat_lt
      rw [List.mem_singleton.mp h]
      show u.toNat ≤ 0x10FFFF
      omega
  | case3 u v rest hpair ih =>
      rcases List.mem_cons.mp h with hc | hc
      · obtain ⟨hu, hv⟩ := Bool.and_eq_true_iff.mp hpair
        have hhigh := Surrogate.isHigh_iff.mp hu
        have hlow := Surrogate.isLow_iff.mp hv
        rw [hc]
        show Surrogate.join u v ≤ 0x10FFFF
        unfold Surrogate.join
        omega
      · exact ih hc
  | case4 u v rest hpair ih =>
      rcases List.mem_cons.mp h with hc | hc
      · have hu := u.toNat_lt
        rw [hc]
        show u.toNat ≤ 0x10FFFF
        omega
      · exact ih hc

/-! ## Reading what has been written -/

/-- A pair in front is read as its symbol. -/
theorem ofUnits_pair (hu : Surrogate.isHigh u = true) (hv : Surrogate.isLow v = true)
    (rest : List UInt16) : ofUnits (u :: v :: rest) = Surrogate.join u v :: ofUnits rest := by
  rw [ofUnits, hu, hv]
  rfl

/-- A unit in front that does not join the next one is read as itself. -/
theorem ofUnits_unit {rest : List UInt16}
    (h : ∀ v ∈ rest.head?, ¬ (Surrogate.isHigh u = true ∧ Surrogate.isLow v = true)) :
    ofUnits (u :: rest) = u.toNat :: ofUnits rest := by
  cases rest with
  | nil => rw [ofUnits, ofUnits]
  | cons v rest =>
      rw [ofUnits, if_neg]
      rw [Bool.and_eq_true]
      exact h v rfl

/-- Two sequences of units are read one after the other, unless a pair stands at the
seam. -/
theorem ofUnits_append {us vs : List UInt16} (h : ∀ u ∈ us.getLast?, ∀ v ∈ vs.head?,
      ¬ (Surrogate.isHigh u = true ∧ Surrogate.isLow v = true)) :
    ofUnits (us ++ vs) = ofUnits us ++ ofUnits vs := by
  fun_induction ofUnits us with
  | case1 => rfl
  | case2 u => exact ofUnits_unit (h u rfl)
  | case3 u v rest hpair ih =>
      obtain ⟨hu, hv⟩ := Bool.and_eq_true_iff.mp hpair
      have hrest : ∀ w ∈ rest.getLast?, w ∈ (u :: v :: rest).getLast? := by
        intro w hw
        rw [List.getLast?_cons_cons, List.getLast?_cons, Option.mem_def.mp hw]
        rfl
      rw [List.cons_append, List.cons_append, ofUnits_pair hu hv, List.cons_append,
        ih fun w hw => h w (hrest w hw)]
  | case4 u v rest hpair ih =>
      rw [List.getLast?_cons_cons] at h
      have hunit : ofUnits (u :: (v :: rest ++ vs)) = u.toNat :: ofUnits (v :: rest ++ vs) := by
        refine ofUnits_unit ?_
        rintro w hw ⟨hhigh, hlow⟩
        obtain rfl : v = w := Option.some.inj hw
        exact hpair (Bool.and_eq_true_iff.mpr ⟨hhigh, hlow⟩)
      exact hunit.trans (congrArg (u.toNat :: ·) (ih h))

/-- A low surrogate begins what a symbol is written as only if the symbol is that
surrogate. -/
theorem low_of_head?_units (hc : c ≤ last) (h : v ∈ (units c).head?)
    (hv : Surrogate.isLow v = true) : c = v.toNat := by
  rcases units_cases hc with ⟨u, hunits, hu⟩ | ⟨u, w, hunits, hhigh, _, _⟩
  · rw [hunits, List.head?_cons, Option.mem_some_iff] at h
    rw [← hu, h]
  · rw [hunits, List.head?_cons, Option.mem_some_iff] at h
    rw [← h, Surrogate.isLow_eq_false_of_isHigh hhigh] at hv
    cases hv

theorem units_ne_nil (c : Nat) : units c ≠ [] := by
  unfold units
  split <;> exact List.cons_ne_nil _ _

/-- Symbols of which no two join are read as they were written. -/
theorem ofUnits_flatMap_units (hlast : ∀ c ∈ cs, c ≤ last) (hapart : Apart cs) :
    ofUnits (cs.flatMap units) = cs := by
  induction cs with
  | nil => rfl
  | cons c rest ih =>
      obtain ⟨hc, hrest⟩ := List.forall_mem_cons.mp hlast
      obtain ⟨hnext, hapart'⟩ := List.isChain_cons.mp hapart
      rw [List.flatMap_cons]
      rcases units_cases hc with ⟨u, hunits, hu⟩ | ⟨u, v, hunits, hhigh, hlow, hjoin⟩
      · rw [hunits, List.singleton_append, ofUnits_unit, ih hrest hapart', hu]
        intro v hv
        cases rest with
        | nil => cases hv
        | cons d rest =>
            rintro ⟨hhigh, hlow⟩
            rw [List.flatMap_cons, List.head?_append_of_ne_nil _ (units_ne_nil d)] at hv
            have hd : d = v.toNat := low_of_head?_units (hrest d List.mem_cons_self) hv hlow
            refine hnext d rfl ⟨?_, ?_⟩
            · rw [← hu]
              exact Surrogate.isHigh_iff.mp hhigh
            · rw [hd]
              exact Surrogate.isLow_iff.mp hlow
      · rw [hunits, List.cons_append, List.singleton_append, ofUnits_pair hhigh hlow, hjoin,
          ih hrest hapart']

/-- Reading finds no more symbols than were written, also behind a high surrogate that
still waits for a low one. -/
theorem count_flatMap_units_le (hlast : ∀ c ∈ cs, c ≤ last) (afterHigh : Bool) :
    count afterHigh (cs.flatMap units) ≤ cs.length := by
  induction cs generalizing afterHigh with
  | nil => exact Nat.le_refl 0
  | cons c rest ih =>
      obtain ⟨hc, hrest⟩ := List.forall_mem_cons.mp hlast
      rw [List.flatMap_cons, List.length_cons]
      rcases units_cases hc with ⟨u, hunits, _⟩ | ⟨u, v, hunits, hhigh, hlow, _⟩
      · rw [hunits, List.singleton_append, count]
        have hfalse := ih hrest false
        have hhigh := ih hrest (Surrogate.isHigh u)
        split <;> omega
      · have hnot := Surrogate.isLow_eq_false_of_isHigh hhigh
        have hfalse := ih hrest false
        rw [hunits, List.cons_append, List.singleton_append, count, hnot, Bool.and_false,
          if_neg Bool.false_ne_true, count, hhigh, hlow]
        show 1 + count false _ ≤ _
        omega

end Symbol

namespace Text

variable {x : Text} {cs : List Nat}

theorem ofSymbols_symbols (x : Text) : ofSymbols x.symbols = x := by
  show Text.mk ((Symbol.ofUnits x.units.toList).flatMap Symbol.units).toArray = x
  rw [Symbol.flatMap_units_ofUnits]

theorem symbolCount_le_length (x : Text) : x.symbolCount ≤ x.length := by
  rw [symbolCount, Symbol.count_eq_length_ofUnits]
  exact Symbol.length_ofUnits_le _

theorem le_last_of_mem_symbols {c : Nat} (h : c ∈ x.symbols) : c ≤ Symbol.last :=
  Symbol.le_last_of_mem_ofUnits h

theorem symbols_ofSymbols (hlast : ∀ c ∈ cs, c ≤ Symbol.last) (hapart : Symbol.Apart cs) :
    (ofSymbols cs).symbols = cs :=
  Symbol.ofUnits_flatMap_units hlast hapart

theorem symbolCount_ofSymbols_le (hlast : ∀ c ∈ cs, c ≤ Symbol.last) :
    (ofSymbols cs).symbolCount ≤ cs.length :=
  Symbol.count_flatMap_units_le hlast false

/-- A symbol below the surrogates is read apart from what stands in front of it. -/
theorem symbols_append_ofSymbols {c : Nat} (x : Text) (hc : c < 0xD800) :
    (x ++ ofSymbols [c]).symbols = x.symbols ++ [c] := by
  obtain ⟨u, hunits, hu, _, hlow⟩ := Symbol.exists_unit_of_lt hc
  show Symbol.ofUnits (x.units ++ (ofSymbols [c]).units).toList = x.symbols ++ [c]
  rw [Array.toList_append, ofSymbols, List.flatMap_singleton, hunits, Symbol.ofUnits_append,
    ← hu]
  · rfl
  · rintro _ _ v hv ⟨_, hv'⟩
    obtain rfl : u = v := Option.some.inj hv
    exact Bool.false_ne_true (hlow.symm.trans hv')

/-- A symbol below the surrogates is read apart from what stands behind it. -/
theorem symbols_ofSymbols_append {c : Nat} (x : Text) (hc : c < 0xD800) :
    (ofSymbols [c] ++ x).symbols = c :: x.symbols := by
  obtain ⟨u, hunits, hu, hhigh, _⟩ := Symbol.exists_unit_of_lt hc
  show Symbol.ofUnits ((ofSymbols [c]).units ++ x.units).toList = c :: x.symbols
  rw [Array.toList_append, ofSymbols, List.flatMap_singleton, hunits, Symbol.ofUnits_append,
    ← hu]
  · rfl
  · rintro v hv _ _ ⟨hv', _⟩
    obtain rfl : u = v := Option.some.inj hv
    exact Bool.false_ne_true (hhigh.symm.trans hv')

/-- A text whose first symbols are known begins with what they are written as. -/
theorem startsWith_ofSymbols (h : cs <+: x.symbols) : x.startsWith (ofSymbols cs) = true := by
  obtain ⟨rest, hrest⟩ := h
  have hx := ofSymbols_symbols x
  rw [← hrest, ofSymbols, List.flatMap_append] at hx
  rw [← hx]
  show Array.isPrefixOf _ _ = true
  rw [← Array.isPrefixOf_toList]
  exact List.isPrefixOf_iff_prefix.mpr (List.prefix_append _ _)

end Text

end RegexEngine
