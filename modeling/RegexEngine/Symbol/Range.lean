/-
# `SymbolRange` — ranges of symbols and their canonical lists

A class of symbols is written as a list of inclusive ranges in any order, with
overlaps and repetitions.  `SymbolRange.normalize` brings such a list into its
canonical form, in which the ranges ascend and some symbol lies strictly between
any two of them.  Two lists name the same symbols exactly when their canonical
forms agree, and in a canonical list one symbol is found by bisection
(`SymbolRange.covers`).

Sorting is by insertion: the lists are short, and the plain recursion evaluates
everywhere.
-/
namespace RegexEngine

/-- The symbols from `first` to `last`, both included. -/
structure SymbolRange where
  first : Nat
  last : Nat
deriving DecidableEq, Inhabited, Repr

namespace SymbolRange

/-- The range of one symbol. -/
def single (c : Nat) : SymbolRange := ⟨c, c⟩

/-- Whether the range holds the symbol. -/
def contains (r : SymbolRange) (c : Nat) : Bool := r.first ≤ c && c ≤ r.last

/-- Order by the first symbol, and by the last one among equal firsts. -/
def precedes (r s : SymbolRange) : Bool :=
  r.first < s.first || (r.first == s.first && r.last ≤ s.last)

/-! ## The canonical form -/

/-- Put a range in front of the first one that it precedes. -/
def orderedInsert (r : SymbolRange) : List SymbolRange → List SymbolRange
  | [] => [r]
  | s :: rest => if r.precedes s then r :: s :: rest else s :: orderedInsert r rest

/-- The ranges in ascending order. -/
def sort (rs : List SymbolRange) : List SymbolRange := rs.foldr orderedInsert []

theorem mem_orderedInsert {r s : SymbolRange} {rs : List SymbolRange} :
    s ∈ orderedInsert r rs ↔ s = r ∨ s ∈ rs := by
  induction rs with
  | nil => simp [orderedInsert]
  | cons t rest ih =>
      unfold orderedInsert
      split
      · simp
      · simp only [List.mem_cons, ih]
        constructor
        · rintro (h | h | h) <;> simp [h]
        · rintro (h | h | h) <;> simp [h]

@[simp] theorem mem_sort {s : SymbolRange} {rs : List SymbolRange} : s ∈ sort rs ↔ s ∈ rs := by
  induction rs with
  | nil => simp [sort]
  | cons r rest ih => rw [sort, List.foldr_cons, mem_orderedInsert, ← sort, ih, List.mem_cons]

/-- Merge ascending ranges into the one in front of them: a range that overlaps
it or begins right behind it extends it, any other range closes it. -/
def mergeInto (r : SymbolRange) : List SymbolRange → List SymbolRange
  | [] => [r]
  | s :: rest =>
      if s.first ≤ r.last + 1 then mergeInto ⟨r.first, max r.last s.last⟩ rest
      else r :: mergeInto s rest

/-- Merge ascending ranges that overlap or touch. -/
def merge : List SymbolRange → List SymbolRange
  | [] => []
  | r :: rest => mergeInto r rest

/-- The canonical list of ranges with the same symbols. -/
def normalize (rs : Array SymbolRange) : Array SymbolRange :=
  (merge (sort rs.toList)).toArray

/-! ## Lookup -/

/-- Look for the range of a symbol among those with indices from `low` up to, but
not including, `high`. -/
def coversWithin (rs : Array SymbolRange) (c low high : Nat) (bound : high ≤ rs.size) : Bool :=
  if h : low < high then
    let middle := (low + (high - 1)) / 2
    have inside : middle < high := by omega
    let r := rs[middle]
    if c < r.first then coversWithin rs c low middle (by omega)
    else if r.last < c then coversWithin rs c (middle + 1) high bound
    else true
  else false
termination_by high - low

/-- Whether some range of a canonical list holds the symbol. -/
def covers (rs : Array SymbolRange) (c : Nat) : Bool :=
  coversWithin rs c 0 rs.size (Nat.le_refl _)

end SymbolRange

end RegexEngine
