/-
# `Text.escaped` — a text written as a pattern for itself

With a backslash in front of every sign, the symbols of a text are a pattern that denotes
them one after the other (`parseRegex_escaped`).  Three things make this true.

* The signs are units of their own, and no surrogates.  So the backslashes break no pair
  apart, and no unit joins another one than before (`symbols_escaped`).
* Behind a backslash a sign means itself, as none of the signs is a letter with a meaning
  of its own.
* What is not escaped is no sign.
-/
import RegexEngine.Proofs.Pattern.Completeness
import RegexEngine.Proofs.Text.Writing

namespace RegexEngine

open Pattern (signs)

/-! ## Escaped units and symbols -/

/-- A unit, behind a backslash if it is a sign. -/
def Text.escapedUnit (u : UInt16) : List UInt16 :=
  if u.toNat ∈ signs then [UInt16.ofNat '\\'.toNat, u] else [u]

/-- The text with a backslash in front of every sign. -/
def Text.escaped (w : Text) : Text := ⟨(w.units.toList.flatMap escapedUnit).toArray⟩

/-- A symbol, behind a backslash if it is a sign. -/
def Symbol.escaped (c : Nat) : List Nat := if c ∈ signs then ['\\'.toNat, c] else [c]

namespace Symbol

open Text (escapedUnit)

variable {u v : UInt16}

theorem not_mem_signs_of_surrogate {c : Nat} (h : 0xD800 ≤ c) : c ∉ signs := by
  have hsmall : ∀ d ∈ signs, d < 0xD800 := by decide
  exact fun hc => absurd (hsmall c hc) (Nat.not_lt.mpr h)

theorem ofUnits_escapedUnit (u : UInt16) : ofUnits (escapedUnit u) = escaped u.toNat := by
  unfold escapedUnit escaped
  split
  · rfl
  · rfl

/-- An escaped unit ends as it did before. -/
theorem eq_of_mem_getLast?_escapedUnit (h : v ∈ (escapedUnit u).getLast?) : v = u := by
  unfold escapedUnit at h
  split at h
  · exact (Option.some.inj h).symm
  · exact (Option.some.inj h).symm

/-- An escaped unit begins with a low surrogate only if it is one. -/
theorem eq_of_low_head?_escapedUnit (h : v ∈ (escapedUnit u).head?)
    (hv : Surrogate.isLow v = true) : v = u := by
  unfold escapedUnit at h
  split at h
  · obtain rfl : UInt16.ofNat '\\'.toNat = v := Option.some.inj h
    cases hv
  · exact (Option.some.inj h).symm

theorem escapedUnit_ne_nil (u : UInt16) : escapedUnit u ≠ [] := by
  unfold escapedUnit
  split <;> exact List.cons_ne_nil _ _

theorem escapedUnit_of_surrogate (h : Surrogate.isHigh u = true ∨ Surrogate.isLow u = true) :
    escapedUnit u = [u] := by
  have hu : 0xD800 ≤ u.toNat := by
    rcases h with h | h
    · exact (Surrogate.isHigh_iff.mp h).1
    · exact Nat.le_trans (by decide) (Surrogate.isLow_iff.mp h).1
  exact if_neg (not_mem_signs_of_surrogate hu)

/-- Escaped units are read as the escaped symbols. -/
theorem ofUnits_flatMap_escapedUnit (us : List UInt16) :
    ofUnits (us.flatMap escapedUnit) = (ofUnits us).flatMap escaped := by
  fun_induction ofUnits us with
  | case1 => rfl
  | case2 u => rw [List.flatMap_singleton, List.flatMap_singleton, ofUnits_escapedUnit]
  | case3 u v rest hpair ih =>
      obtain ⟨hu, hv⟩ := Bool.and_eq_true_iff.mp hpair
      have hjoin : escaped (Surrogate.join u v) = [Surrogate.join u v] := by
        refine if_neg (not_mem_signs_of_surrogate ?_)
        unfold Surrogate.join
        omega
      rw [List.flatMap_cons, List.flatMap_cons, escapedUnit_of_surrogate (.inl hu),
        escapedUnit_of_surrogate (.inr hv), List.singleton_append, List.singleton_append,
        ofUnits_pair hu hv, ih, List.flatMap_cons, hjoin, List.singleton_append]
  | case4 u v rest hpair ih =>
      have hseam : ofUnits ((u :: v :: rest).flatMap escapedUnit) =
          ofUnits (escapedUnit u) ++ ofUnits ((v :: rest).flatMap escapedUnit) := by
        -- What follows begins with a backslash or as it did before, so no new pair is made.
        rw [List.flatMap_cons]
        refine ofUnits_append ?_
        rintro a ha b hb ⟨hhigh, hlow⟩
        rw [List.flatMap_cons, List.head?_append_of_ne_nil _ (escapedUnit_ne_nil v)] at hb
        obtain rfl := eq_of_mem_getLast?_escapedUnit ha
        obtain rfl := eq_of_low_head?_escapedUnit hb hlow
        exact hpair (Bool.and_eq_true_iff.mpr ⟨hhigh, hlow⟩)
      rw [hseam, ofUnits_escapedUnit, ih, List.flatMap_cons]

end Symbol

theorem Text.symbols_escaped (w : Text) : w.escaped.symbols = w.symbols.flatMap Symbol.escaped :=
  Symbol.ofUnits_flatMap_escapedUnit w.units.toList

/-! ## The pattern of a text -/

/-- The expression with the symbols behind it. -/
def Regex.followedBy (r : Regex) : List Nat → Regex
  | [] => r
  | c :: cs => (concat r (literal c)).followedBy cs

/-- The expression that denotes the symbols one after the other. -/
def Regex.verbatim : List Nat → Regex
  | [] => .empty
  | c :: cs => (literal c).followedBy cs

namespace Pattern

variable {budget : Nat} {cs : List Nat} {r : Regex}

/-- None of the signs is a letter with a meaning of its own. -/
theorem derives_escaped (budget c : Nat) :
    Derives .repetition budget (Symbol.escaped c) (.literal c) := by
  unfold Symbol.escaped
  split
  · rename_i hc
    have hitself : ∀ d ∈ signs, Escape.ofSymbol d = .symbol d := by decide
    exact .once (.escape (Escape.means_iff.mpr (hitself c hc)))
  · rename_i hc
    exact .once (.literal hc)

theorem Derives.followedBy (h : Derives .sequence budget cs r) (ds : List Nat) :
    Derives .sequence budget (cs ++ ds.flatMap Symbol.escaped) (r.followedBy ds) := by
  induction ds generalizing cs r with
  | nil =>
      rw [List.flatMap_nil, List.append_nil]
      exact h
  | cons d ds ih =>
      rw [List.flatMap_cons, ← List.append_assoc]
      exact ih (.append h (derives_escaped budget d))

theorem derives_verbatim (budget : Nat) (cs : List Nat) :
    Derives .alternation budget (cs.flatMap Symbol.escaped) (.verbatim cs) := by
  cases cs with
  | nil => exact .empty
  | cons c cs =>
      rw [List.flatMap_cons]
      exact .alternation (.branch (Derives.followedBy (.single (derives_escaped budget c)) cs))

/-- An escaped text is a pattern, which denotes the symbols of the text. -/
theorem parseRegex_escaped (w : Text) : parseRegex w.escaped = .ok (.verbatim w.symbols) := by
  refine parseRegex_of_derives ?_
  rw [Text.symbols_escaped]
  exact derives_verbatim maxNesting w.symbols

end Pattern

end RegexEngine
