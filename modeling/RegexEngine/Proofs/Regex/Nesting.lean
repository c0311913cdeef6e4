/-
# `Regex.Regroups` — how a chain is nested leaves no trace in the layout

Concatenation and alternation are binary, so a chain of operands can be nested in many
ways.  `Regroups` relates the expressions that differ in this only: it is the least
congruence that contains the two associative laws.  The order of the operands is kept,
and a chain may stand inside the operands of another one, of either operator.

Expressions that differ in nesting only are laid out alike, down to the numbers of the
states and the order of the transitions (`Regroups.sameLayout`).  Every function that the
layout is made of respects the two laws and is compatible with every operator; this is
collected in `SameLayout`, and the induction over `Regroups` only puts it together.  The
blocks of a chain follow each other, and where a block begins is found from the end of
the chain by subtracting sizes.  So a law comes down to subtracting the sizes of two
operands at once or one after the other.
-/
import RegexEngine.Automaton.Build

namespace RegexEngine

namespace Regex

/-- The expressions differ in the nesting of chains only. -/
inductive Regroups : Regex → Regex → Prop
  | concat_assoc (a b c : Regex) : Regroups (.concat (.concat a b) c) (.concat a (.concat b c))
  | alternate_assoc (a b c : Regex) :
      Regroups (.alternate (.alternate a b) c) (.alternate a (.alternate b c))
  | concat {l l' r r' : Regex} : Regroups l l' → Regroups r r' →
      Regroups (.concat l r) (.concat l' r')
  | alternate {l l' r r' : Regex} : Regroups l l' → Regroups r r' →
      Regroups (.alternate l r) (.alternate l' r')
  | star {r r' : Regex} : Regroups r r' → Regroups (.star r) (.star r')
  | plus {r r' : Regex} : Regroups r r' → Regroups (.plus r) (.plus r')
  | optional {r r' : Regex} : Regroups r r' → Regroups (.optional r) (.optional r')
  | refl (r : Regex) : Regroups r r
  | symm {r s : Regex} : Regroups r s → Regroups s r
  | trans {r s t : Regex} : Regroups r s → Regroups s t → Regroups r t

variable {l l' r r' s t : Regex}

/-! ## The layout of states -/

/-- The expressions are laid out alike: their blocks have the same size and exit, are
entered by the same transitions, and hold the same rows, wherever they are placed. -/
structure SameLayout (r s : Regex) : Prop where
  blockSize : ∀ asBranch, r.blockSize asBranch = s.blockSize asBranch
  blockExit : ∀ base stop, r.blockExit base stop = s.blockExit base stop
  branchEntries : ∀ base stop following,
    r.branchEntries base stop following = s.branchEntries base stop following
  block : ∀ flags asBranch base stop out following,
    r.block flags asBranch base stop out following =
      s.block flags asBranch base stop out following

namespace SameLayout

theorem refl (r : Regex) : SameLayout r r :=
  ⟨fun _ => rfl, fun _ _ => rfl, fun _ _ _ => rfl, fun _ _ _ _ _ _ => rfl⟩

theorem symm (h : SameLayout r s) : SameLayout s r where
  blockSize _ := (h.blockSize _).symm
  blockExit _ _ := (h.blockExit _ _).symm
  branchEntries _ _ _ := (h.branchEntries _ _ _).symm
  block _ _ _ _ _ _ := (h.block _ _ _ _ _ _).symm

theorem trans (hrs : SameLayout r s) (hst : SameLayout s t) : SameLayout r t where
  blockSize _ := (hrs.blockSize _).trans (hst.blockSize _)
  blockExit _ _ := (hrs.blockExit _ _).trans (hst.blockExit _ _)
  branchEntries _ _ _ := (hrs.branchEntries _ _ _).trans (hst.branchEntries _ _ _)
  block _ _ _ _ _ _ := (hrs.block _ _ _ _ _ _).trans (hst.block _ _ _ _ _ _)

theorem concat (hl : SameLayout l l') (hr : SameLayout r r') :
    SameLayout (.concat l r) (.concat l' r') where
  blockSize _ := by simp only [Regex.blockSize, hl.blockSize, hr.blockSize]
  blockExit _ _ := by simp only [Regex.blockExit, hr.blockSize, hr.blockExit]
  branchEntries _ _ _ := rfl
  block _ _ _ _ _ _ := by simp only [Regex.block, hr.blockSize, hl.block, hr.block]

theorem alternate (hl : SameLayout l l') (hr : SameLayout r r') :
    SameLayout (.alternate l r) (.alternate l' r') where
  blockSize _ := by simp only [Regex.blockSize, hl.blockSize, hr.blockSize]
  blockExit _ _ := rfl
  branchEntries _ _ _ := by
    simp only [Regex.branchEntries, hr.blockSize, hl.branchEntries, hr.branchEntries]
  block _ _ _ _ _ _ := by
    simp only [Regex.block, hr.blockSize, hl.branchEntries, hr.branchEntries, hl.block, hr.block]

theorem star (h : SameLayout r r') : SameLayout (.star r) (.star r') where
  blockSize _ := by simp only [Regex.blockSize, h.blockSize]
  blockExit _ _ := rfl
  branchEntries _ _ _ := rfl
  block _ _ _ _ _ _ := by simp only [Regex.block, h.block]

theorem plus (h : SameLayout r r') : SameLayout (.plus r) (.plus r') where
  blockSize _ := by simp only [Regex.blockSize, h.blockSize]
  blockExit _ _ := rfl
  branchEntries _ _ _ := rfl
  block _ _ _ _ _ _ := by simp only [Regex.block, h.block]

theorem optional (h : SameLayout r r') : SameLayout (.optional r) (.optional r') where
  blockSize _ := by simp only [Regex.blockSize, h.blockSize]
  blockExit _ _ := rfl
  branchEntries _ _ _ := rfl
  block _ _ _ _ _ _ := by simp only [Regex.block, h.block]

/-- Two blocks at the end are passed at once or one after the other. -/
theorem sub_add_eq (stop m n : Nat) : stop - (m + n) = stop - n - m := by
  rw [Nat.sub_sub, Nat.add_comm]

theorem concat_assoc (a b c : Regex) :
    SameLayout (.concat (.concat a b) c) (.concat a (.concat b c)) where
  blockSize _ := by simp only [Regex.blockSize, Nat.add_assoc]
  blockExit _ _ := rfl
  branchEntries _ _ _ := rfl
  block _ _ _ _ _ _ := by simp only [Regex.block, Regex.blockSize, sub_add_eq]

theorem alternate_assoc (a b c : Regex) :
    SameLayout (.alternate (.alternate a b) c) (.alternate a (.alternate b c)) where
  blockSize _ := by simp only [Regex.blockSize, if_true, Nat.zero_add, Nat.add_assoc]
  blockExit _ _ := rfl
  branchEntries _ _ _ := by
    simp only [Regex.branchEntries, Regex.blockSize, if_true, Nat.zero_add, sub_add_eq]
  block _ _ _ _ _ _ := by
    simp only [Regex.block, Regex.branchEntries, Regex.blockSize, if_true, Nat.zero_add, sub_add_eq]

end SameLayout

theorem Regroups.sameLayout (h : r.Regroups s) : SameLayout r s := by
  induction h with
  | concat_assoc a b c => exact .concat_assoc a b c
  | alternate_assoc a b c => exact .alternate_assoc a b c
  | concat _ _ ihl ihr => exact ihl.concat ihr
  | alternate _ _ ihl ihr => exact ihl.alternate ihr
  | star _ ih => exact ih.star
  | plus _ ih => exact ih.plus
  | optional _ ih => exact ih.optional
  | refl r => exact .refl r
  | symm _ ih => exact ih.symm
  | trans _ _ ihrs ihst => exact ihrs.trans ihst

end Regex

end RegexEngine
