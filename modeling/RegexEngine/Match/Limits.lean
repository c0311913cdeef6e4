/-
# `Limits` — ceilings on the work of one call

A host may bound the length of an input and the number of steps of a call, where
a step is one symbol transition put to one symbol.  A `Meter` counts steps
against a ceiling.  The first step above the ceiling ends the call, so the error
names the least count that lies above it.
-/
import RegexEngine.Number.Basic
import RegexEngine.Text.Basic

namespace RegexEngine

/-- Ceilings on the length of an input, in units, and on the steps of a call. -/
structure Limits where
  maxInputLength : Number
  maxSteps : Number
deriving DecidableEq, Inhabited, Repr

/-- What a call may exceed. -/
inductive LimitKind where
  | inputLength
  | steps
deriving DecidableEq, Inhabited, Repr

/-- A call exceeded a ceiling. -/
structure LimitError where
  kind : LimitKind
  limit : Number
  actual : Nat
deriving DecidableEq, Inhabited, Repr

namespace Limits

/-- No ceilings. -/
def unlimited : Limits := ⟨.infinity, .infinity⟩

/-- The given ceilings; one that is not given is no ceiling. -/
def resolve (maxInputLength? maxSteps? : Option Number) : Limits :=
  ⟨maxInputLength?.getD .infinity, maxSteps?.getD .infinity⟩

end Limits

namespace LimitError

/-- The name of the kind of error. -/
def code (e : LimitError) : String :=
  match e.kind with
  | .inputLength => "INPUT_LIMIT"
  | .steps => "STEP_LIMIT"

/-- The wording. -/
def message (e : LimitError) : String :=
  match e.kind with
  | .inputLength =>
      "Input length " ++ e.actual.repr ++ " exceeds limit of " ++ e.limit.layout
  | .steps => "Match exceeded limit of " ++ e.limit.layout ++ " steps"

end LimitError

/-- Steps taken so far, and the ceiling on them. -/
structure Meter where
  steps : Nat
  limit : Number
deriving DecidableEq, Inhabited, Repr

namespace Meter

/-- Start counting for an input, unless the input is too long. -/
def start (limits : Limits) (x : Text) : Except LimitError Meter :=
  if limits.maxInputLength.exceededBy x.length then
    .error ⟨.inputLength, limits.maxInputLength, x.length⟩
  else .ok ⟨0, limits.maxSteps⟩

/-- Count further steps. -/
def advance (m : Meter) (k : Nat) : Meter := ⟨m.steps + k, m.limit⟩

/-- Take further steps: the first one above the ceiling is an error. -/
def charge (m : Meter) (k : Nat) : Except LimitError Meter :=
  if k ≠ 0 ∧ m.limit.exceededBy (m.steps + k) then
    .error ⟨.steps, m.limit, max (m.steps + 1) m.limit.leastAbove⟩
  else .ok (m.advance k)

@[simp] theorem advance_zero (m : Meter) : m.advance 0 = m := rfl

theorem advance_advance (m : Meter) (j k : Nat) : (m.advance j).advance k = m.advance (j + k) := by
  simp [advance, Nat.add_assoc]

@[simp] theorem charge_zero (m : Meter) : m.charge 0 = .ok m := by simp [charge]

end Meter

end RegexEngine
