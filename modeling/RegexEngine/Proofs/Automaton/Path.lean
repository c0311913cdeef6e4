/-
# `Automaton.Path` — the runs of an automaton over a text

A run is at a *place*: in a state, at an offset of the text.  A step stays at its
offset if it is silent, and passes one whole symbol otherwise; anchors are tested
in the whole text.  A path is any number of steps.

This is the meaning of an automaton that every matcher of the library is measured
against.  It knows nothing of sets of states, of threads, or of the order in which
transitions are tried.

The facts below cut a path in two: in front of its last symbol
(`Path.last_symbol`), behind its first one (`Path.first_symbol`), and at any
boundary that it passes (`Path.through`).
-/
import RegexEngine.Automaton.Basic
import RegexEngine.Proofs.Text.Cutting

namespace RegexEngine

/-- A state, and an offset of the text. -/
structure Place where
  state : Nat
  offset : Nat
deriving DecidableEq, Inhabited, Repr

/-- Between which offsets a transition is open. -/
def Transition.Passes (x : Text) (flags : Flags) : Transition → Nat → Nat → Prop
  | .epsilon _ => fun i j => i = j
  | .assert anchor _ => fun i j => i = j ∧ anchor.holds x i flags = true
  | .symbol s _ => fun i j => ∃ c, x.Reads i c j ∧ s.acceptsSymbol flags c = true

namespace Automaton

/-- A transition from `q` to `t` that consumes nothing and is open at a position. -/
inductive Silent (a : Automaton) (x : Text) (position : Nat) : Nat → Nat → Prop
  | epsilon {q t : Nat} : .epsilon t ∈ a.out q → Silent a x position q t
  | assert {q t : Nat} {anchor : Anchor} : .assert anchor t ∈ a.out q →
      anchor.holds x position a.flags = true → Silent a x position q t

/-- One step of a run. -/
inductive Step (a : Automaton) (x : Text) : Place → Place → Prop
  | silent {q t i : Nat} : a.Silent x i q t → Step a x ⟨q, i⟩ ⟨t, i⟩
  | symbol {q t i j c : Nat} {s : SymbolSet} : .symbol s t ∈ a.out q → x.Reads i c j →
      s.acceptsSymbol a.flags c = true → Step a x ⟨q, i⟩ ⟨t, j⟩

/-- Any number of steps. -/
def Path (a : Automaton) (x : Text) : Place → Place → Prop := Relation.ReflTransGen (a.Step x)

/-- Any number of silent steps at one position. -/
def Reaches (a : Automaton) (x : Text) (position : Nat) : Nat → Nat → Prop :=
  Relation.ReflTransGen (a.Silent x position)

variable {a : Automaton} {x : Text} {p q r t i j c : Nat} {u v w : Place}

/-! ## What the automaton lists, as relations -/

theorem mem_silentTargets : t ∈ a.silentTargets x p q ↔ a.Silent x p q t := by
  simp only [silentTargets, List.mem_filterMap]
  constructor
  · rintro ⟨tr, hmem, htr⟩
    cases tr with
    | epsilon t' =>
        cases htr
        exact .epsilon hmem
    | assert anchor t' =>
        obtain ⟨hholds, ht⟩ := Option.ite_none_right_eq_some.mp htr
        cases ht
        exact .assert hmem hholds
    | symbol s t' => cases htr
  · intro h
    cases h with
    | epsilon hmem => exact ⟨_, hmem, rfl⟩
    | assert hmem hholds => exact ⟨_, hmem, if_pos hholds⟩

theorem mem_symbolTargets :
    t ∈ a.symbolTargets (a.flags.variants c) q ↔
      ∃ s, .symbol s t ∈ a.out q ∧ s.acceptsSymbol a.flags c = true := by
  simp only [symbolTargets, List.mem_filterMap]
  constructor
  · rintro ⟨tr, hmem, htr⟩
    cases tr with
    | epsilon t' => cases htr
    | assert anchor t' => cases htr
    | symbol s t' =>
        obtain ⟨hacc, ht⟩ := Option.ite_none_right_eq_some.mp htr
        cases ht
        exact ⟨s, hmem, hacc⟩
  · rintro ⟨s, hmem, hacc⟩
    exact ⟨_, hmem, if_pos hacc⟩

/-- A step takes one transition. -/
theorem step_iff : a.Step x u v ↔
    ∃ tr ∈ a.out u.state, v.state = tr.target ∧ tr.Passes x a.flags u.offset v.offset := by
  constructor
  · intro h
    cases h with
    | silent hsilent =>
        cases hsilent with
        | epsilon hmem => exact ⟨_, hmem, rfl, rfl⟩
        | assert hmem hholds => exact ⟨_, hmem, rfl, rfl, hholds⟩
    | symbol hmem hread hacc => exact ⟨_, hmem, rfl, _, hread, hacc⟩
  · obtain ⟨q, i⟩ := u
    obtain ⟨t, j⟩ := v
    rintro ⟨tr, hmem, rfl, hpasses⟩
    cases tr with
    | epsilon t =>
        obtain rfl : i = j := hpasses
        exact .silent (.epsilon hmem)
    | assert anchor t =>
        obtain ⟨rfl, hholds⟩ : i = j ∧ anchor.holds x i a.flags = true := hpasses
        exact .silent (.assert hmem hholds)
    | symbol s t =>
        obtain ⟨c, hread, hacc⟩ := hpasses
        exact .symbol hmem hread hacc

/-- A step that passes a symbol. -/
theorem Step.of_mem_symbolTargets (hread : x.Reads i c j)
    (h : t ∈ a.symbolTargets (a.flags.variants c) q) : a.Step x ⟨q, i⟩ ⟨t, j⟩ := by
  obtain ⟨s, hmem, hacc⟩ := mem_symbolTargets.mp h
  exact .symbol hmem hread hacc

/-! ## Targets stay inside the automaton -/

/-- What is said of every transition of an automaton can be checked row by row. -/
theorem forall_mem_out_iff {P : Transition → Prop} :
    (∀ q, ∀ tr ∈ a.out q, P tr) ↔ ∀ row ∈ a.states.toList, ∀ tr ∈ row, P tr := by
  constructor
  · intro h row hrow tr htr
    obtain ⟨q, hq⟩ := List.mem_iff_getElem?.mp hrow
    have hout : a.out q = row := by rw [out, ← Array.getElem?_toList, hq, Option.getD_some]
    exact h q tr (hout ▸ htr)
  · intro h q tr htr
    unfold out at htr
    cases hq : a.states[q]? with
    | none =>
        rw [hq] at htr
        exact absurd htr List.not_mem_nil
    | some row =>
        rw [hq] at htr
        exact h row (Array.mem_toList_iff.mpr (Array.mem_of_getElem? hq)) tr htr

theorem wellFormed_iff : a.WellFormed ↔
    a.start < a.size ∧ a.accept < a.size ∧
      ∀ row ∈ a.states.toList, ∀ tr ∈ row, tr.target < a.size := by
  rw [← forall_mem_out_iff]
  exact ⟨fun h => ⟨h.start_lt, h.accept_lt, h.target_lt⟩, fun ⟨hs, ha, ht⟩ => ⟨hs, ha, ht⟩⟩

instance : Decidable a.WellFormed := decidable_of_iff _ wellFormed_iff.symm

theorem Silent.lt (ha : a.WellFormed) (h : a.Silent x p q t) : t < a.size := by
  cases h with
  | epsilon hmem => exact ha.target_lt q _ hmem
  | assert hmem _ => exact ha.target_lt q _ hmem

theorem Reaches.lt (ha : a.WellFormed) (hq : q < a.size) (h : a.Reaches x p q r) :
    r < a.size := by
  cases h with
  | refl => exact hq
  | tail _ hlast => exact hlast.lt ha

theorem lt_of_mem_symbolTargets (ha : a.WellFormed)
    (h : t ∈ a.symbolTargets (a.flags.variants c) q) : t < a.size := by
  obtain ⟨s, hmem, _⟩ := mem_symbolTargets.mp h
  exact ha.target_lt q _ hmem

theorem lt_of_mem_flatMap_symbolTargets (ha : a.WellFormed) {states : List Nat}
    (h : t ∈ states.flatMap (a.symbolTargets (a.flags.variants c))) : t < a.size := by
  obtain ⟨q, _, ht⟩ := List.mem_flatMap.mp h
  exact lt_of_mem_symbolTargets ha ht

/-! ## Paths -/

theorem Reaches.path (h : a.Reaches x p q r) : a.Path x ⟨q, p⟩ ⟨r, p⟩ := by
  induction h with
  | refl => exact .refl
  | tail _ hlast ih => exact .tail ih (.silent hlast)

theorem Step.le (h : a.Step x u v) : u.offset ≤ v.offset := by
  cases h with
  | silent _ => exact Nat.le_refl _
  | symbol _ hread _ => exact Nat.le_of_lt hread.lt

theorem Path.le (h : a.Path x u v) : u.offset ≤ v.offset := by
  induction h with
  | refl => exact Nat.le_refl _
  | tail _ hstep ih => exact Nat.le_trans ih hstep.le

theorem Path.lt (ha : a.WellFormed) (h : a.Path x u v) (hu : u.state < a.size) :
    v.state < a.size := by
  induction h with
  | refl => exact hu
  | tail _ hstep _ =>
      cases hstep with
      | silent hsilent => exact hsilent.lt ha
      | symbol hmem _ _ => exact ha.target_lt _ _ hmem

/-- A path ends at a boundary, seen from where it starts. -/
theorem Path.boundary (h : a.Path x u v) : x.Boundary u.offset v.offset := by
  induction h with
  | refl => exact .refl
  | tail _ hstep ih =>
      cases hstep with
      | silent _ => exact ih
      | symbol _ hread _ => exact .tail ih ⟨_, hread⟩

/-- A path that passes no symbol is silent. -/
theorem Path.reaches (h : a.Path x u v) (heq : u.offset = v.offset) :
    a.Reaches x v.offset u.state v.state := by
  induction h with
  | refl => exact .refl
  | tail hpath hstep ih =>
      cases hstep with
      | silent hsilent => exact .tail (ih heq) hsilent
      | symbol _ hread _ =>
          have hle := Path.le hpath
          have hlt := hread.lt
          dsimp only at heq hle
          omega

/-- A path to offset `j` passes no symbol, or a last one, which ends at `j`. -/
theorem Path.last_symbol (h : a.Path x u ⟨r, j⟩) :
    (u.offset = j ∧ a.Reaches x j u.state r) ∨
      ∃ q i c t, a.Path x u ⟨q, i⟩ ∧ x.Reads i c j ∧
        t ∈ a.symbolTargets (a.flags.variants c) q ∧ a.Reaches x j t r := by
  generalize hv : (⟨r, j⟩ : Place) = v at h
  induction h generalizing r j with
  | refl =>
      subst hv
      exact Or.inl ⟨rfl, .refl⟩
  | tail hpath hstep ih =>
      cases hstep with
      | silent hsilent =>
          cases hv
          rcases ih rfl with ⟨heq, hreach⟩ | ⟨q, i, c, t, hq, hread, ht, hreach⟩
          · exact Or.inl ⟨heq, .tail hreach hsilent⟩
          · exact Or.inr ⟨q, i, c, t, hq, hread, ht, .tail hreach hsilent⟩
      | symbol hmem hread hacc =>
          cases hv
          exact Or.inr ⟨_, _, _, _, hpath, hread, mem_symbolTargets.mpr ⟨_, hmem, hacc⟩, .refl⟩

/-- A path from offset `i` passes no symbol, or a first one, which begins at `i`. -/
theorem Path.first_symbol (h : a.Path x ⟨q, i⟩ w) :
    (i = w.offset ∧ a.Reaches x i q w.state) ∨
      ∃ r c j t, a.Reaches x i q r ∧ x.Reads i c j ∧
        t ∈ a.symbolTargets (a.flags.variants c) r ∧ a.Path x ⟨t, j⟩ w := by
  generalize hu : (⟨q, i⟩ : Place) = u at h
  induction h using Relation.ReflTransGen.head_induction_on generalizing q i with
  | refl =>
      subst hu
      exact Or.inl ⟨rfl, .refl⟩
  | head hstep hpath ih =>
      cases hstep with
      | silent hsilent =>
          cases hu
          rcases ih rfl with ⟨heq, hreach⟩ | ⟨r, c, j, t, hreach, hread, ht, hrest⟩
          · exact Or.inl ⟨heq, .head hsilent hreach⟩
          · exact Or.inr ⟨r, c, j, t, .head hsilent hreach, hread, ht, hrest⟩
      | symbol hmem hread hacc =>
          cases hu
          exact Or.inr ⟨_, _, _, _, .refl, hread, mem_symbolTargets.mpr ⟨_, hmem, hacc⟩, hpath⟩

/-- A path is at every boundary between its ends. -/
theorem Path.through (h : a.Path x u v) (hp : x.Boundary u.offset p) (hle : p ≤ v.offset) :
    ∃ m, a.Path x u ⟨m, p⟩ ∧ a.Path x ⟨m, p⟩ v := by
  induction h using Relation.ReflTransGen.head_induction_on with
  | refl =>
      have heq : p = v.offset := Nat.le_antisymm hle hp.le
      subst heq
      exact ⟨v.state, .refl, .refl⟩
  | @head u w hstep hpath ih =>
      by_cases heq : u.offset = p
      · subst heq
        exact ⟨u.state, .refl, .head hstep hpath⟩
      · have hw : x.Boundary w.offset p := by
          cases hstep with
          | silent _ => exact hp
          | symbol _ hread _ =>
              exact hp.of_next ⟨_, hread⟩ (Nat.lt_of_le_of_ne hp.le heq)
        obtain ⟨m, hfront, hback⟩ := ih hw
        exact ⟨m, .head hstep hfront, hback⟩

end Automaton

end RegexEngine
