/-
# `Pattern.Class` — reading a bracketed class

Reads what stands between `[` and the bracket that closes it.  A first `]` is an
ordinary member, and so is a `-` that has no member on both sides to join.  A
shorthand class may be a member, but it can neither be negated nor end a range.
-/
import RegexEngine.Pattern.Error
import RegexEngine.Pattern.Glyph

namespace RegexEngine

/-- A member of a class: a symbol, which may start or end a range, or the ranges
of a shorthand class. -/
inductive ClassMember where
  | symbol (c : Nat)
  | shorthand (ranges : Array SymbolRange)
deriving DecidableEq, Inhabited, Repr

/-- The member that one glyph stands for. -/
def ClassMember.ofGlyph (g : Placed Glyph) : Except SyntaxError ClassMember :=
  match g.item with
  | .plain c => .ok (.symbol c)
  | .escaped c =>
      match Escape.ofSymbol c with
      | .symbol meant => .ok (.symbol meant)
      | .shorthand k =>
          if k.negated then .error ⟨.negatedShorthand, g.position, g.item.width⟩
          else .ok (.shorthand k.ranges)
  | .loneBackslash => .error (.ofUnit .trailingEscape g.position)

namespace Pattern

/-- The range between two members of a class, joined by a hyphen. -/
def rangeBetween (source : Text) (lowGlyph highGlyph : Placed Glyph) (low : Nat) :
    Except SyntaxError SymbolRange :=
  match ClassMember.ofGlyph highGlyph with
  | .error e => .error e
  | .ok (.shorthand _) =>
      .error ⟨.rangeToShorthand, lowGlyph.position, highGlyph.stop - lowGlyph.position⟩
  | .ok (.symbol high) =>
      if high < low then
        .error ⟨.reversedRange (source.slice lowGlyph.position highGlyph.stop),
          lowGlyph.position, highGlyph.stop - lowGlyph.position⟩
      else .ok ⟨low, high⟩

/-- Read the members of the class opened at `opened`, onto the ranges read so
far, and give back what follows the closing bracket.  The bracket does not close
a class while its first member is awaited. -/
def readMembers (source : Text) (opened : Nat) (ranges : Array SymbolRange) (first : Bool) :
    List (Placed Glyph) → Except SyntaxError (Array SymbolRange × List (Placed Glyph))
  | [] => .error ⟨.unclosedClass, opened, source.length - opened⟩
  | g :: rest =>
      if !first && g.item == .plain ']'.toNat then .ok (ranges, rest)
      else
        match ClassMember.ofGlyph g with
        | .error e => .error e
        | .ok (.shorthand more) => readMembers source opened (ranges ++ more) false rest
        | .ok (.symbol low) =>
            match rest with
            | hyphen :: high :: behind =>
                if hyphen.item == .plain '-'.toNat && high.item != .plain ']'.toNat then
                  match rangeBetween source g high low with
                  | .error e => .error e
                  | .ok r => readMembers source opened (ranges.push r) false behind
                else
                  readMembers source opened (ranges.push (.single low)) false
                    (hyphen :: high :: behind)
            | short => readMembers source opened (ranges.push (.single low)) false short

/-- Read the class opened at `opened`, from right behind its bracket. -/
def readClass (source : Text) (opened : Nat) (glyphs : List (Placed Glyph)) :
    Except SyntaxError (SymbolClass × List (Placed Glyph)) :=
  let negated := glyphs.head?.any (·.item == .plain '^'.toNat)
  match readMembers source opened #[] true (if negated then glyphs.tail else glyphs) with
  | .error e => .error e
  | .ok (ranges, rest) => .ok (⟨negated, ranges⟩, rest)

/-- Reading members consumes at least the closing bracket. -/
theorem length_of_readMembers {source : Text} {opened : Nat} {ranges : Array SymbolRange}
    {first : Bool} {glyphs : List (Placed Glyph)} {result : Array SymbolRange}
    {rest : List (Placed Glyph)}
    (h : readMembers source opened ranges first glyphs = .ok (result, rest)) :
    rest.length < glyphs.length := by
  fun_induction readMembers source opened ranges first glyphs with
  | case1 | case3 | case5 => cases h
  | case2 ranges first bracket behind =>
      cases h
      exact Nat.lt_succ_self _
  | case4 ranges first g behind _ more _ ih => exact Nat.lt_succ_of_lt (ih h)
  | case6 ranges first g _ low _ hyphen high behind _ r _ ih =>
      have hlt : rest.length < behind.length := ih h
      simp only [List.length_cons]
      omega
  | case7 ranges first g _ low _ hyphen high behind _ ih => exact Nat.lt_succ_of_lt (ih h)
  | case8 ranges first g _ low _ short _ ih => exact Nat.lt_succ_of_lt (ih h)

theorem length_of_readClass {source : Text} {opened : Nat} {glyphs rest : List (Placed Glyph)}
    {k : SymbolClass} (h : readClass source opened glyphs = .ok (k, rest)) :
    rest.length < glyphs.length := by
  unfold readClass at h
  dsimp only at h
  split at h
  · cases h
  · rename_i ranges behind hread
    have hlt := length_of_readMembers hread
    cases h
    split at hlt
    · exact Nat.lt_of_lt_of_le hlt (by simp)
    · exact hlt

end Pattern

end RegexEngine
