/-
# `CaseMapping` — letter case as seen one symbol at a time

Three mappings compare symbols without regard to case: the small form, the
capital form, and the *fold*, which is the small form of the capital form.
Folding goes through the capital because a capital may have several small
forms: `σ` and `ς` both fold to `σ`, by way of `Σ`.

A symbol whose mapped form is longer than one symbol has no such form here;
the fold then keeps what it has.

The runs of a mapping are looked up in a search tree of logarithmic depth.
-/
import RegexEngine.Unicode.CaseRuns

namespace RegexEngine.Unicode

/-- Whether the run takes the symbol. -/
def CaseRun.covers (r : CaseRun) (c : Nat) : Bool :=
  Nat.ble r.first c && Nat.ble c r.last && Nat.beq ((c - r.first) % r.stride) 0

/-! ## Search trees of runs -/

/-- Runs in ascending order, for bisection. -/
inductive CaseTree where
  | leaf
  | node (left : CaseTree) (run : CaseRun) (right : CaseTree)
deriving DecidableEq, Repr

namespace CaseTree

/-- A tree of the given depth from the front of a list of runs, and the runs that
did not fit. -/
def fill : Nat → List CaseRun → CaseTree × List CaseRun
  | 0, runs => (.leaf, runs)
  | depth + 1, runs =>
      let left := fill depth runs
      match left.2 with
      | [] => (left.1, [])
      | run :: rest =>
          let right := fill depth rest
          (.node left.1 run right.1, right.2)

/-- The tree of a list of runs. -/
def ofRuns (runs : List CaseRun) : CaseTree := (fill (runs.length.log2 + 1) runs).1

/-- The runs of a tree, in order. -/
def runs : CaseTree → List CaseRun
  | leaf => []
  | node left run right => left.runs ++ run :: right.runs

/-- The run that takes a symbol. -/
def find? (c : Nat) : CaseTree → Option CaseRun
  | leaf => none
  | node left run right =>
      if Nat.blt c run.first then left.find? c
      else if Nat.blt run.last c then right.find? c
      else if run.covers c then some run
      else none

/-- The number of runs that a tree of the given depth has room for. -/
def room : Nat → Nat
  | 0 => 0
  | depth + 1 => room depth + (1 + room depth)

/-- Filling a tree keeps the runs in order and leaves over what it has no room
for. -/
theorem runs_fill (depth : Nat) (rs : List CaseRun) :
    (fill depth rs).1.runs ++ (fill depth rs).2 = rs ∧
      (fill depth rs).2.length = rs.length - room depth := by
  induction depth generalizing rs with
  | zero => exact ⟨rfl, rfl⟩
  | succ depth ih =>
      have hleft := ih rs
      unfold fill room
      dsimp only
      cases hrest : (fill depth rs).2 with
      | nil =>
          rw [hrest] at hleft
          simp only [List.append_nil, List.length_nil] at hleft ⊢
          exact ⟨hleft.1, by omega⟩
      | cons run rest =>
          rw [hrest] at hleft
          have hright := ih rest
          simp only [List.length_cons] at hleft
          refine ⟨?_, by simp only; omega⟩
          simp only [runs, List.append_assoc, List.cons_append]
          rw [hright.1, hleft.1]

/-- The tree of a list of runs holds them all. -/
@[simp] theorem runs_ofRuns (rs : List CaseRun) : (ofRuns rs).runs = rs := by
  have hroom : ∀ depth, room depth + 1 = 2 ^ depth := by
    intro depth
    induction depth with
    | zero => rfl
    | succ depth ih => rw [Nat.pow_succ, ← ih, room]; omega
  have hfits : rs.length < 2 ^ (rs.length.log2 + 1) := Nat.lt_log2_self
  have hfill := runs_fill (rs.length.log2 + 1) rs
  rw [← hroom] at hfits
  have hnil : (fill (rs.length.log2 + 1) rs).2 = [] := List.eq_nil_of_length_eq_zero (by omega)
  rw [hnil, List.append_nil] at hfill
  exact hfill.1

/-- What is found is one of the runs and takes the symbol. -/
theorem of_find?_eq_some {c : Nat} {t : CaseTree} {r : CaseRun} (h : t.find? c = some r) :
    r ∈ t.runs ∧ r.covers c = true := by
  induction t with
  | leaf => simp [find?] at h
  | node left run right ihl ihr =>
      simp only [find?] at h
      split at h
      · exact ⟨by simp [runs, (ihl h).1], (ihl h).2⟩
      · split at h
        · exact ⟨by simp [runs, (ihr h).1], (ihr h).2⟩
        · split at h
          · rename_i hcovers
            cases h
            exact ⟨by simp [runs], hcovers⟩
          · cases h

/-- The image of a symbol; a symbol that no run takes is its own. -/
def image? (t : CaseTree) (c : Nat) : Option Nat :=
  match t.find? c with
  | none => some c
  | some r => r.image.map (· + (c - r.first))

end CaseTree

/-! ## The mappings -/

/-- The runs of the small forms. -/
def lowerTree : CaseTree := .ofRuns lowerRuns

/-- The runs of the capital forms. -/
def upperTree : CaseTree := .ofRuns upperRuns

/-- The small form, if it is one symbol. -/
def lower? (c : Nat) : Option Nat := lowerTree.image? c

/-- The capital form, if it is one symbol. -/
def upper? (c : Nat) : Option Nat := upperTree.image? c

/-- The small form of the capital form; a form that does not exist is passed
over. -/
def foldCase (c : Nat) : Nat :=
  let upper := (upper? c).getD c
  (lower? upper).getD upper

/-- The small and the capital form, as far as they exist, in this order. -/
def caseForms (c : Nat) : List Nat := (lower? c).toList ++ (upper? c).toList

/-- A symbol with its forms and its fold, each listed once, in the order in which
they first appear. -/
def caseVariants (c : Nat) : List Nat :=
  (caseForms c ++ [foldCase c]).foldl
    (fun variants form => if variants.contains form then variants else variants ++ [form]) [c]

example : caseVariants 'ς'.toNat = ['ς'.toNat, 'Σ'.toNat, 'σ'.toNat] := by decide +kernel
example : upper? 'ß'.toNat = none ∧ foldCase 'ß'.toNat = 'ß'.toNat := by decide +kernel

end RegexEngine.Unicode
