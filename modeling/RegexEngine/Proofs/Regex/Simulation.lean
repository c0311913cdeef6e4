/-
# `Regex.Parallel` — expressions of one shape

Two expressions are parallel when they have the same shape and the same anchors, and
their symbol sets are related one by one.  To compare what they span, in one text or in
two, it is enough to compare single symbols and anchors: if a relation between offsets
is carried along by every pair of related sets, and related offsets agree on the
anchors, then it is carried along by the whole expressions (`Parallel.simulates`).

The relation on offsets is a simulation in the usual sense, and each way of building an
expression is an operation on relations that preserves simulations.
-/
import RegexEngine.Proofs.Regex.Spans

namespace RegexEngine

/-! ## Simulations -/

/-- Where the one relation leads from an offset, the other leads from each related
offset, and again to a related one. -/
def Simulates (E R R' : Nat → Nat → Prop) : Prop :=
  ∀ ⦃i j i'⦄, E i i' → R i j → ∃ j', R' i' j' ∧ E j j'

namespace Simulates

variable {E R R' S S' : Nat → Nat → Prop}

theorem refl_of_eq (E : Nat → Nat → Prop) : Simulates E (· = ·) (· = ·) := by
  rintro i _ i' h rfl
  exact ⟨i', rfl, h⟩

theorem comp (hR : Simulates E R R') (hS : Simulates E S S') :
    Simulates E (Relation.Comp R S) (Relation.Comp R' S') := by
  rintro i j i' h ⟨k, hik, hkj⟩
  obtain ⟨k', hik', hk⟩ := hR h hik
  obtain ⟨j', hkj', hj⟩ := hS hk hkj
  exact ⟨j', ⟨k', hik', hkj'⟩, hj⟩

theorem or (hR : Simulates E R R') (hS : Simulates E S S') :
    Simulates E (fun i j => R i j ∨ S i j) (fun i j => R' i j ∨ S' i j) := by
  rintro i j i' h (hij | hij)
  · obtain ⟨j', hij', hj⟩ := hR h hij
    exact ⟨j', Or.inl hij', hj⟩
  · obtain ⟨j', hij', hj⟩ := hS h hij
    exact ⟨j', Or.inr hij', hj⟩

theorem reflTransGen (hR : Simulates E R R') :
    Simulates E (Relation.ReflTransGen R) (Relation.ReflTransGen R') := by
  intro i j i' h hij
  induction hij with
  | refl => exact ⟨i', .refl, h⟩
  | tail _ hlast ih =>
      obtain ⟨k', hik', hk⟩ := ih
      obtain ⟨j', hkj', hj⟩ := hR hk hlast
      exact ⟨j', .tail hik' hkj', hj⟩

theorem transGen (hR : Simulates E R R') :
    Simulates E (Relation.TransGen R) (Relation.TransGen R') := by
  intro i j i' h hij
  obtain ⟨k, hfirst, hrest⟩ := Relation.TransGen.head'_iff.mp hij
  obtain ⟨k', hfirst', hk⟩ := hR h hfirst
  obtain ⟨j', hrest', hj⟩ := hR.reflTransGen hk hrest
  exact ⟨j', .head' hfirst' hrest', hj⟩

theorem reflGen (hR : Simulates E R R') :
    Simulates E (Relation.ReflGen R) (Relation.ReflGen R') := by
  intro i j i' h hij
  cases hij with
  | refl => exact ⟨i', .refl, h⟩
  | single hij =>
      obtain ⟨j', hij', hj⟩ := hR h hij
      exact ⟨j', .single hij', hj⟩

end Simulates

/-! ## Parallel expressions -/

namespace Regex

/-- Two expressions have the same shape and the same anchors, and their sets are
related one by one. -/
inductive Parallel (related : SymbolSet → SymbolSet → Prop) : Regex → Regex → Prop
  | empty : Parallel related .empty .empty
  | symbol {s t : SymbolSet} : related s t → Parallel related (.symbol s) (.symbol t)
  | anchor (a : Anchor) : Parallel related (.anchor a) (.anchor a)
  | concat {l r l' r' : Regex} : Parallel related l l' → Parallel related r r' →
      Parallel related (.concat l r) (.concat l' r')
  | alternate {l r l' r' : Regex} : Parallel related l l' → Parallel related r r' →
      Parallel related (.alternate l r) (.alternate l' r')
  | star {r r' : Regex} : Parallel related r r' → Parallel related (.star r) (.star r')
  | plus {r r' : Regex} : Parallel related r r' → Parallel related (.plus r) (.plus r')
  | optional {r r' : Regex} : Parallel related r r' →
      Parallel related (.optional r) (.optional r')

variable {related : SymbolSet → SymbolSet → Prop} {r r' : Regex}

theorem Parallel.symm (hsymm : ∀ s t, related s t → related t s) (h : Parallel related r r') :
    Parallel related r' r := by
  induction h with
  | empty => exact .empty
  | symbol h => exact .symbol (hsymm _ _ h)
  | anchor a => exact .anchor a
  | concat _ _ ihl ihr => exact .concat ihl ihr
  | alternate _ _ ihl ihr => exact .alternate ihl ihr
  | star _ ih => exact .star ih
  | plus _ ih => exact .plus ih
  | optional _ ih => exact .optional ih

/-- What is carried along by related sets and agrees on the anchors is carried along by
parallel expressions. -/
theorem Parallel.simulates {E : Nat → Nat → Prop} {flags flags' : Flags} {x x' : Text}
    (hset : ∀ s t, related s t →
      Simulates E ((Regex.symbol s).Spans flags x) ((Regex.symbol t).Spans flags' x'))
    (hanchor : ∀ (a : Anchor) (i i' : Nat), E i i' → a.holds x i flags = true →
      a.holds x' i' flags' = true)
    (h : Parallel related r r') : Simulates E (r.Spans flags x) (r'.Spans flags' x') := by
  induction h with
  | empty => exact .refl_of_eq E
  | symbol h => exact hset _ _ h
  | anchor a =>
      rintro i _ i' h ⟨rfl, hholds⟩
      exact ⟨i', ⟨rfl, hanchor a i i' h hholds⟩, h⟩
  | concat _ _ ihl ihr => exact ihl.comp ihr
  | alternate _ _ ihl ihr => exact ihl.or ihr
  | star _ ih => exact ih.reflTransGen
  | plus _ ih => exact ih.transGen
  | optional _ ih => exact ih.reflGen

end Regex

end RegexEngine
