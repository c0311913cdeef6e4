/-
# `Pattern.callDepth_le` — a pattern is no deeper than its groups

How long a pattern is does not bound how deep the expression is that it denotes: branches
and sequences are left-nested, one node for each symbol.  But calls go down a chain in one
step (`Regex.callDepth`), and then only groups lead further down.  Between a group and
the next one inside of it there are at most three calls, those for the branches, for the
factors of a branch, and for the quantifier of a factor.  So with `n` groups inside of
each other

    phrase         what is bounded                      by
    atom           the depth                            3 n + 1
    repetition     the depth                            3 n + 2
    sequence       the depth of every factor            3 n + 2
    branches       the depth of every branch            3 n + 3
    alternation    the depth                            3 n + 4

A group leaves no node, and what it holds can go on with the chain that it stands in.  This
is why the bounds for chains are about their operands, and an operand of a chain is never
deeper than the chain.

The bound is reached at every nesting (`exists_callDepth_eq`).
-/
import RegexEngine.Proofs.Automaton.CallDepth
import RegexEngine.Proofs.Pattern.Grouping

namespace RegexEngine.Pattern

variable {n : Nat} {cs : List Nat} {r l : Regex} {source : Text} {phrase : Phrase}

/-! ## The bound -/

/-- The expression of a phrase is as shallow as the nesting of groups allows. -/
def Phrase.Shallow (n : Nat) (r : Regex) : Phrase → Prop
  | .atom => r.callDepth ≤ 3 * n + 1
  | .repetition => r.callDepth ≤ 3 * n + 2
  | .sequence => ∀ f ∈ r.factors, f.callDepth ≤ 3 * n + 2
  | .branches => ∀ b ∈ r.branches, b.callDepth ≤ 3 * n + 3
  | .alternation => r.callDepth ≤ 3 * n + 4

theorem Phrase.Shallow.branch (h : Phrase.sequence.Shallow n r) : Phrase.branches.Shallow n r :=
  fun _ hb => Nat.le_trans (Regex.callDepth_branch_le hb) (Regex.callDepth_le_of_factors h)

theorem Derives.shallow (h : Derives phrase n cs r) : phrase.Shallow n r := by
  induction h with
  | any | symbolClass | escape | literal =>
      show Regex.callDepth (.symbol _) ≤ _
      rw [Regex.callDepth_symbol]
      exact Nat.le_add_left 1 _
  | start | stop =>
      show Regex.callDepth (.anchor _) ≤ _
      rw [Regex.callDepth_anchor]
      exact Nat.le_add_left 1 _
  | group _ ih => exact ih
  | once _ ih => exact Nat.le_succ_of_le ih
  | quantified q _ _ ih =>
      show (q.apply _).callDepth ≤ _
      rw [Regex.callDepth_apply, Nat.add_comm]
      exact Nat.succ_le_succ ih
  | single _ ih => exact fun f hf => Nat.le_trans (Regex.callDepth_factor_le hf) ih
  | append _ _ ihl ihr =>
      intro f hf
      rcases List.mem_append.mp (Regex.factors_concat _ _ ▸ hf) with hf | hf
      · exact ihl f hf
      · exact Nat.le_trans (Regex.callDepth_factor_le hf) ihr
  | branch _ ih => exact ih.branch
  | bar _ _ ihl ihr =>
      intro b hb
      rcases List.mem_append.mp (Regex.branches_alternate _ _ ▸ hb) with hb | hb
      · exact ihl b hb
      · exact ihr.branch b hb
  | empty =>
      show Regex.callDepth .empty ≤ _
      rw [Regex.callDepth_empty]
      exact Nat.le_add_left 1 _
  | alternation _ ih => exact Regex.callDepth_le_of_branches ih

/-- The calls that are open at once are bounded by the groups that are open at once, and so
by the limit for them. -/
theorem callDepth_le (h : parseRegex source = .ok r) :
    r.callDepth ≤ 3 * nesting source + 4 ∧ nesting source ≤ maxNesting := by
  have hle := ((derives_iff_nesting (Nat.le_refl maxNesting)).mp (derives_of_parseRegex h)).2
  exact ⟨((derives_iff_nesting hle).mpr ⟨h, Nat.le_refl _⟩).shallow, hle⟩

/-! ## Patterns that reach the bound -/

/-- An expression under a quantifier, in a sequence, in a branch. -/
def layered (r : Regex) : Regex :=
  .alternate (.concat (.star r) (.literal 'b'.toNat)) (.literal 'c'.toNat)

theorem callDepth_layered (r : Regex) : (layered r).callDepth = 3 + r.callDepth := by
  have hconcat : Regex.callDepth (.concat (.star r) (.literal 'b'.toNat)) = 2 + r.callDepth := by
    have hfactors : Regex.factors (.concat (.star r) (.literal 'b'.toNat)) =
        [.star r, .literal 'b'.toNat] := rfl
    rw [Regex.callDepth_concat, hfactors, Regex.deepest, Regex.deepest, Regex.deepest,
      Regex.callDepth, Regex.literal, Regex.callDepth_symbol]
    omega
  have hbranches : (layered r).branches =
      [.concat (.star r) (.literal 'b'.toNat), .literal 'c'.toNat] := rfl
  rw [layered, Regex.callDepth_alternate, ← layered, hbranches, Regex.deepest, Regex.deepest,
    Regex.deepest, hconcat, Regex.literal, Regex.callDepth_symbol]
  omega

/-- Groups inside of each other, with all three layers around each. -/
def tower : Nat → Text
  | 0 => .ofString "a*b|c"
  | n + 1 => repeatGroup (tower n) .star ++ .ofSymbols ['b'.toNat] ++ .ofSymbols ['|'.toNat] ++
      .ofSymbols ['c'.toNat]

/-- What the groups denote. -/
def towerRoot : Nat → Regex
  | 0 => layered (.literal 'a'.toNat)
  | n + 1 => layered (towerRoot n)

theorem callDepth_towerRoot (n : Nat) : (towerRoot n).callDepth = 3 * n + 4 := by
  induction n with
  | zero => rw [towerRoot, callDepth_layered, Regex.literal, Regex.callDepth_symbol]
  | succ n ih =>
      rw [towerRoot, callDepth_layered, ih]
      omega

theorem Derives.layered (h : Derives .atom n cs r) (hanchor : r.isAnchor = false) :
    Derives .alternation n (cs ++ ['*'.toNat] ++ ['b'.toNat] ++ '|'.toNat :: ['c'.toNat])
      (layered r) :=
  .alternation (.bar
    (.branch (.append (.single (.quantified .star h hanchor)) (.once (.literal (by decide)))))
    (.single (.once (.literal (by decide)))))

theorem derives_tower (n : Nat) : Derives .alternation n (tower n).symbols (towerRoot n) := by
  induction n with
  | zero => exact (Derives.literal (by decide)).layered rfl
  | succ n ih =>
      have hanchor : (towerRoot n).isAnchor = false := by cases n <;> rfl
      rw [tower, Text.symbols_append_ofSymbols _ (by decide),
        Text.symbols_append_ofSymbols _ (by decide), Text.symbols_append_ofSymbols _ (by decide),
        symbols_repeatGroup, List.append_assoc _ ['|'.toNat]]
      exact ih.group.layered hanchor

/-- At every nesting that is allowed there is a pattern as deep as the bound. -/
theorem exists_callDepth_eq (hn : n ≤ maxNesting) : ∃ source r,
    parseRegex source = .ok r ∧ nesting source = n ∧ r.callDepth = 3 * n + 4 := by
  obtain ⟨hparse, hle⟩ := (derives_iff_nesting hn).mp (derives_tower n)
  have hdepth := callDepth_towerRoot n
  have hbound := (callDepth_le hparse).1
  exact ⟨tower n, towerRoot n, hparse, by omega, hdepth⟩

/-! ## The room that a pattern needs -/

/-- The depth of a pattern is bounded by the limit for groups, however long the pattern is.
It is the room that building needs, no more and no less, and room enough for the bounds on
the length of a match. -/
theorem calls_of_parseRegex (source : Text) (r : Regex) (h : parseRegex source = .ok r) :
    r.callDepth ≤ 3 * nesting source + 4 ∧
      r.callDepth ≤ 3 * maxNesting + 4 ∧ 3 * maxNesting + 4 = 1504 ∧
      (∀ flags room arena, (Arena.buildWithin flags room r).run arena =
        if r.callDepth ≤ room then some ((Arena.buildFragment flags r).run arena) else none) ∧
      ∀ room, r.callDepth ≤ room →
        r.minLengthWithin room = some (some r.minLength) ∧
          r.maxLengthWithin room = some r.maxLength? := by
  obtain ⟨hdepth, hnesting⟩ := callDepth_le h
  have hbuild : ∀ flags room arena, (Arena.buildWithin flags room r).run arena =
      if r.callDepth ≤ room then some ((Arena.buildFragment flags r).run arena) else none := by
    intro flags room arena
    rw [Arena.buildWithin_eq, Arena.needing]
    split <;> rfl
  have hlengths : ∀ room, r.callDepth ≤ room →
      r.minLengthWithin room = some (some r.minLength) ∧
        r.maxLengthWithin room = some r.maxLength? :=
    fun room hroom => ⟨Regex.minLengthWithin_eq hroom, Regex.maxLengthWithin_eq hroom⟩
  exact ⟨hdepth, by omega, rfl, hbuild, hlengths⟩

/-- A pattern with one group, as deep as such a pattern can be: building it takes seven calls
inside of each other, and six are not enough. -/
theorem calls_of_tower :
    parseRegex (.ofString "(a*b|c)*b|c") = .ok (towerRoot 1) ∧
      (towerRoot 1).callDepth = 7 ∧ (towerRoot 1).callDepth ≤ 1504 ∧
      ((Arena.buildWithin ⟨false, false⟩ 7 (towerRoot 1)).run ⟨#[]⟩).isSome = true ∧
      (Arena.buildWithin ⟨false, false⟩ 6 (towerRoot 1)).run ⟨#[]⟩ = none ∧
      (towerRoot 1).minLengthWithin 7 = some (some 1) := by
  have hparse : parseRegex (.ofString "(a*b|c)*b|c") = .ok (towerRoot 1) := by decide +kernel
  obtain ⟨-, hbound, hlimit, hbuild, hlengths⟩ := calls_of_parseRegex _ _ hparse
  have hdepth : (towerRoot 1).callDepth = 7 := callDepth_towerRoot 1
  refine ⟨hparse, hdepth, hlimit ▸ hbound, ?_, ?_, (hlengths 7 (Nat.le_of_eq hdepth)).1⟩
  · rw [hbuild, if_pos (Nat.le_of_eq hdepth)]
    rfl
  · rw [hbuild, hdepth]
    rfl

end RegexEngine.Pattern
