/-
# `Text.symbolAtOffset` — reading where a caller says

Inside the library a symbol is read with the proof that its offset lies in the
text.  A caller's offset is any number; its integer part must fall inside.
-/
import RegexEngine.Number.Basic
import RegexEngine.Text.Basic

namespace RegexEngine

/-- An offset at which a text has no symbol. -/
structure OffsetError where
  offset : Number
deriving DecidableEq, Inhabited, Repr

/-- The wording. -/
def OffsetError.message (e : OffsetError) : String := "No symbol at offset " ++ e.offset.layout

/-- The symbol at an offset, or the error that there is none. -/
def Text.symbolAtOffset (x : Text) (offset : Number) : Except OffsetError Nat :=
  match offset.truncate? with
  | some (.ofNat i) => if inside : i < x.length then .ok (x.symbolAt i inside) else .error ⟨offset⟩
  | _ => .error ⟨offset⟩

end RegexEngine
