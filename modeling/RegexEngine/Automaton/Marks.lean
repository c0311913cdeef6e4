/-
# `Marks` — which numbers of a finite range have been seen

The searches over an automaton visit every state, or every configuration, at most
once.  `Marks` remembers which; its measure `Marks.unmarked` falls with every new
mark, and this is why the searches end.
-/
namespace RegexEngine

/-- A mark for every number below the size. -/
structure Marks where
  seen : Array Bool
deriving DecidableEq, Inhabited, Repr

namespace Marks

/-- No number below `n` is marked. -/
def clear (n : Nat) : Marks := ⟨Array.replicate n false⟩

/-- Whether a number is in range and not marked. -/
def isFresh (m : Marks) (i : Nat) : Bool := m.seen[i]? == some false

/-- Mark a number. -/
def mark (m : Marks) (i : Nat) : Marks := ⟨m.seen.setIfInBounds i true⟩

/-- How many numbers are not marked. -/
def unmarked (m : Marks) : Nat := m.seen.toList.countP (! ·)

/-- A fresh number, once marked, is one fewer to mark. -/
theorem unmarked_mark {m : Marks} {i : Nat} (h : m.isFresh i = true) :
    (m.mark i).unmarked + 1 = m.unmarked := by
  simp only [isFresh, beq_iff_eq] at h
  obtain ⟨hi, hv⟩ := Array.getElem?_eq_some_iff.mp h
  have hl : i < m.seen.toList.length := hi
  have hg : m.seen.toList[i] = false := hv
  have hpos : 0 < m.seen.toList.countP (! ·) :=
    List.countP_pos_iff.mpr ⟨m.seen.toList[i], List.getElem_mem hl, by rw [hg]; rfl⟩
  simp only [unmarked, mark, Array.toList_setIfInBounds, List.countP_set hl, hg, Bool.not_false,
    Bool.not_true, Bool.false_eq_true, if_true, if_false]
  omega

end Marks

end RegexEngine
