/-
# `Text.readAt` — what is under a cursor

A reader with a cursor looks at a text in two ways.  It peeks at the unit under the
cursor, which is none past the end (`Text.unitAt?`), and it reads the symbol that starts
there, which it must not do past the end (`Text.readAt`).  What it peeks at decides what
it reads, so the two have to agree: a unit in front of the surrogates is the symbol
(`unitAt?_eq_some_iff`), and any other symbol shows a unit that is no sign of anything
(`Reads.exists_unit`).

A read past the end is a `Trap`, one of the things that a computation over texts and
automata must not do.  A computation with traps does the same as the one without, and
looks first.
-/
import RegexEngine.Proofs.Text.Cutting
import RegexEngine.Proofs.Text.Writing

namespace RegexEngine

/-- What must not happen. -/
inductive Trap where
  /-- A symbol is read at an offset outside of the text. -/
  | outside (offset : Nat)
  /-- A loop over a text goes round without having moved on from an offset. -/
  | stalled (offset : Nat)
  /-- A state is looked up that the automaton does not have. -/
  | noState (q : Nat)
  /-- A number is written, or its variants are asked for, that is no symbol. -/
  | noSymbol (c : Nat)
deriving DecidableEq, Inhabited, Repr

namespace Text

variable {x : Text} {i j c s : Nat}

/-- The unit at an offset; past the end there is none. -/
def unitAt? (x : Text) (i : Nat) : Option Nat := x.units[i]?.map UInt16.toNat

/-- Read the symbol that starts at an offset. -/
def readAt (x : Text) (i : Nat) : Except Trap Nat :=
  if inside : i < x.length then .ok (x.symbolAt i inside) else .error (.outside i)

theorem lt_length_of_unitAt? (h : x.unitAt? i = some c) : i < x.length := by
  obtain ⟨u, hu, _⟩ := Option.map_eq_some_iff.mp h
  exact (Array.getElem?_eq_some_iff.mp hu).1

theorem unitAt?_eq_none_iff : x.unitAt? i = none ↔ x.length ≤ i := by
  rw [unitAt?, Option.map_eq_none_iff, Array.getElem?_eq_none_iff]
  exact Iff.rfl

theorem Reads.stop_eq (h : x.Reads i c j) : j = i + Symbol.width c := by
  obtain ⟨_, rfl, rfl⟩ := h
  rfl

theorem Reads.readAt (h : x.Reads i c j) : x.readAt i = .ok c := by
  obtain ⟨inside, rfl, rfl⟩ := h
  exact dif_pos inside

/-- Under the cursor is the unit of the symbol, or the first of its two units. -/
theorem Reads.exists_unit (h : x.Reads i c j) :
    ∃ u, x.unitAt? i = some u ∧ ((u = c ∧ j = i + 1) ∨ (0xD800 ≤ u ∧ 0x10000 ≤ c)) := by
  obtain ⟨inside, hat, hstop⟩ := h
  obtain ⟨u, rest, hdrop, _⟩ := exists_drop_units inside
  have hunit : x.units[i]? = some u := by
    have hhead := congrArg List.head? hdrop
    rwa [List.head?_drop, List.head?_cons, Array.getElem?_toList] at hhead
  refine ⟨u.toNat, by rw [unitAt?, hunit, Option.map_some], ?_⟩
  rw [symbolAt_of_drop inside hdrop] at hat
  by_cases hpair : (Surrogate.isHigh u && rest.head?.any Surrogate.isLow) = true
  · rw [if_pos hpair] at hat
    have hhigh := Surrogate.isHigh_iff.mp (Bool.and_eq_true_iff.mp hpair).1
    have hjoin : 0x10000 ≤ Surrogate.join u (rest.head?.getD 0) := by
      unfold Surrogate.join
      omega
    exact .inr ⟨hhigh.1, hat ▸ hjoin⟩
  · rw [if_neg hpair] at hat
    rw [← hat, Symbol.width_toNat] at hstop
    exact .inl ⟨hat, hstop.symm⟩

/-- A symbol that is no pair is its unit. -/
theorem Reads.unitAt? (h : x.Reads i c j) (hc : c ≤ 0xFFFF) : x.unitAt? i = some c := by
  obtain ⟨u, hu, ⟨rfl, _⟩ | ⟨_, hpair⟩⟩ := h.exists_unit
  · exact hu
  · omega

/-- A unit in front of the surrogates is a symbol. -/
theorem unitAt?_eq_some_iff (hs : s < 0xD800) : x.unitAt? i = some s ↔ x.Reads i s (i + 1) := by
  constructor
  · intro h
    have hread := reads_symbolAt (lt_length_of_unitAt? h)
    obtain ⟨u, hu, hcases⟩ := hread.exists_unit
    obtain rfl : u = s := Option.some.inj (hu.symm.trans h)
    rcases hcases with ⟨heq, hstop⟩ | ⟨hhigh, _⟩
    · rwa [hstop, ← heq] at hread
    · omega
  · intro h
    exact h.unitAt? (by omega)

end Text

end RegexEngine
