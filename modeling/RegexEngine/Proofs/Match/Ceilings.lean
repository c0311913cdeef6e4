/-
# `Call` — what limits do to a call

Every call on an automaton and a text (`Call`) checks the length of the text first and
then works under a meter (`Call.outcome_eq`).  The work takes a number of steps that
the call, the automaton and the text fix (`Call.steps`); it ticks them one at a time and
then returns.  So a call can end in three ways, and limits only select which (`Ends`):

    the text is too long    the error names the limit and the length
    too many steps          the error names the limit and the least positive count
                            above it, at which the counting stops
    neither                 the answer of the call without limits

A call that takes no step at all meets no ceiling on steps, not even a negative one.
-/
import RegexEngine.Filter
import RegexEngine.Proofs.Match.LeftmostLongest
import RegexEngine.Proofs.Match.Metering

namespace RegexEngine

/-- The calls on an automaton and a text, by the type of their answers. -/
inductive Call : Type → Type where
  | accepts : Call Bool
  | acceptsFiltered (filter : Filter) : Call Bool
  | find (offset : Number) : Call (Option Span)
  | findAll : Call (List Span)
  | test : Call Bool

/-- No limit of the first is above that of the second. -/
structure Limits.AtMost (limits raised : Limits) : Prop where
  maxInputLength : limits.maxInputLength.AtMost raised.maxInputLength
  maxSteps : limits.maxSteps.AtMost raised.maxSteps

/-- How a call on a text ends under limits, when it takes so many steps to its answer
without them. -/
inductive Ends {α : Type} (x : Text) (limits : Limits) (steps : ℕ) (answer : α) :
    Except LimitError α → Prop
  | tooLong : limits.maxInputLength.Below x.length →
      Ends x limits steps answer (.error ⟨.inputLength, limits.maxInputLength, x.length⟩)
  | tooManySteps {least : ℕ} : ¬ limits.maxInputLength.Below x.length →
      0 < steps → limits.maxSteps.Below steps →
      IsLeast {j | 0 < j ∧ limits.maxSteps.Below j} least →
      Ends x limits steps answer (.error ⟨.steps, limits.maxSteps, least⟩)
  | answered : ¬ limits.maxInputLength.Below x.length →
      ¬ (0 < steps ∧ limits.maxSteps.Below steps) → Ends x limits steps answer (.ok answer)

namespace Ends

variable {α : Type} {x : Text} {limits : Limits} {steps : ℕ} {answer : α}
  {outcome : Except LimitError α}

/-- A call returns where no limit stops it, and then returns its answer. -/
theorem eq_ok_iff (h : Ends x limits steps answer outcome) {b : α} :
    outcome = .ok b ↔ b = answer ∧ ¬ limits.maxInputLength.Below x.length ∧
      ¬ (0 < steps ∧ limits.maxSteps.Below steps) := by
  cases h with
  | tooLong hlong => exact iff_of_false (by simp) (fun hok => hok.2.1 hlong)
  | tooManySteps _ hpos hmany _ =>
      exact iff_of_false (by simp) (fun hok => hok.2.2 ⟨hpos, hmany⟩)
  | answered hfits hfew =>
      constructor
      · intro heq
        exact ⟨(Except.ok.inj heq).symm, hfits, hfew⟩
      · rintro ⟨rfl, _⟩
        rfl

/-- A call returns the same under limits that are not smaller. -/
theorem of_atMost {raised : Limits} {outcome' : Except LimitError α} {b : α}
    (h : Ends x limits steps answer outcome) (h' : Ends x raised steps answer outcome')
    (hle : limits.AtMost raised) (hb : outcome = .ok b) : outcome' = .ok b := by
  obtain ⟨hanswer, hfits, hfew⟩ := h.eq_ok_iff.mp hb
  refine h'.eq_ok_iff.mpr ⟨hanswer, fun hlong => hfits ?_, fun hmany => hfew ⟨hmany.1, ?_⟩⟩
  · exact hle.maxInputLength.below hlong
  · exact hle.maxSteps.below hmany.2

end Ends

namespace Call

variable {α : Type}

/-- Make the call. -/
def outcome (a : Automaton) (x : Text) (limits : Limits) : Call α → Except LimitError α
  | .accepts => a.accepts x limits
  | .acceptsFiltered filter => a.acceptsFiltered x filter limits
  | .find offset => a.find x offset limits
  | .findAll => a.findAll x limits
  | .test => a.test x limits

/-- What a call does under a meter, once the length of the text has been checked. -/
def work (a : Automaton) (x : Text) : Call α → Meter → Except LimitError (α × Meter)
  | .accepts, meter => a.run x meter
  | .acceptsFiltered filter, meter =>
      if filter.passes x then a.run x meter else .ok (false, meter)
  | .find offset, meter =>
      match offset.startOffset? with
      | none => .ok (none, meter)
      | some start => a.findFrom x start meter
  | .findAll, meter => a.findAllFrom x (x.length + 1) 0 meter
  | .test, meter => (a.findFrom x 0 meter).map fun r => (r.1.isSome, r.2)

/-- The steps that a call counts when nothing limits it. -/
def steps (a : Automaton) (x : Text) (call : Call α) : ℕ :=
  match call.work a x ⟨0, .infinity⟩ with
  | .ok (_, after) => after.steps
  | .error _ => 0

/-- A call checks the length of the text, and then works under a meter. -/
theorem outcome_eq (call : Call α) (a : Automaton) (x : Text) (limits : Limits) :
    call.outcome a x limits =
      (Meter.start limits x).bind fun meter => (call.work a x meter).map (·.1) := by
  cases call with
  | accepts =>
      show a.accepts x limits = _
      rw [Automaton.accepts]
      cases Meter.start limits x <;> rfl
  | acceptsFiltered filter =>
      show a.acceptsFiltered x filter limits = _
      rw [Automaton.acceptsFiltered]
      cases Meter.start limits x with
      | error e => rfl
      | ok meter =>
          show _ = (if filter.passes x then a.run x meter else .ok (false, meter)).map (·.1)
          by_cases hpasses : filter.passes x = true
          · rw [if_pos hpasses]
            exact if_pos hpasses
          · rw [if_neg hpasses]
            exact if_neg hpasses
  | find offset =>
      show a.find x offset limits = _
      rw [Automaton.find]
      cases Meter.start limits x with
      | error e => rfl
      | ok meter =>
          show _ = ((find offset).work a x meter).map (·.1)
          rw [work]
          cases offset.startOffset? <;> rfl
  | findAll =>
      show a.findAll x limits = _
      rw [Automaton.findAll]
      cases Meter.start limits x <;> rfl
  | test =>
      have hzero : (Number.ofNat 0).startOffset? = some 0 := rfl
      show a.test x limits = _
      rw [Automaton.test, Automaton.find, hzero]
      cases Meter.start limits x with
      | error e => rfl
      | ok meter =>
          show ((a.findFrom x 0 meter).map (·.1)).map (·.isSome) =
            ((a.findFrom x 0 meter).map _).map _
          cases a.findFrom x 0 meter <;> rfl

/-- Whatever the meter, a call takes the same steps to the same answer. -/
theorem exists_takes (call : Call α) (a : Automaton) (x : Text) :
    ∃ answer cost, Takes (call.work a x) cost answer := by
  cases call with
  | accepts => exact a.run_takes x
  | acceptsFiltered filter =>
      by_cases hpasses : filter.passes x = true
      · have hwork : (acceptsFiltered filter).work a x = a.run x := funext fun _ => if_pos hpasses
        rw [hwork]
        exact a.run_takes x
      · exact ⟨_, _, .nothing fun _ => if_neg hpasses⟩
  | find offset =>
      cases hstart : offset.startOffset? with
      | none =>
          refine ⟨none, 0, .nothing fun meter => ?_⟩
          rw [work, hstart]
      | some start =>
          have hwork : (find offset).work a x = a.findFrom x start := funext fun meter => by
            rw [work, hstart]
          rw [hwork]
          exact a.findFrom_takes x start
  | findAll => exact a.findAllFrom_takes x (x.length + 1) 0
  | test =>
      obtain ⟨found, cost, hfind⟩ := a.findFrom_takes x 0
      exact ⟨found.isSome, cost, hfind.map fun _ => rfl⟩

/-- The steps that a call takes are those that it counts when nothing limits it. -/
theorem steps_eq {call : Call α} {a : Automaton} {x : Text} {cost : ℕ} {answer : α}
    (h : Takes (call.work a x) cost answer) : call.steps a x = cost := by
  have hmeter : (Meter.mk 0 .infinity).limit = .infinity := rfl
  rw [steps, h, Meter.charge_of_infinity hmeter]
  exact Nat.zero_add cost

/-- How work that takes so many steps ends under limits. -/
theorem ends_of_takes {call : Call α} {a : Automaton} {x : Text} {cost : ℕ} {answer : α}
    (h : Takes (call.work a x) cost answer) (limits : Limits) :
    Ends x limits cost answer (call.outcome a x limits) := by
  rw [outcome_eq, Meter.start]
  by_cases hlong : limits.maxInputLength.Below x.length
  · rw [if_pos (Number.exceededBy_iff_below.mpr hlong)]
    exact .tooLong hlong
  rw [if_neg (mt Number.exceededBy_iff_below.mp hlong)]
  show Ends x limits cost answer ((call.work a x ⟨0, limits.maxSteps⟩).map (·.1))
  have hsum : (Meter.mk 0 limits.maxSteps).steps + cost = cost := Nat.zero_add cost
  rw [h]
  by_cases hmany : 0 < cost ∧ limits.maxSteps.Below cost
  · have hexceeded : limits.maxSteps.exceededBy ((Meter.mk 0 limits.maxSteps).steps + cost) :=
      hsum.symm ▸ Number.exceededBy_iff_below.mpr hmany.2
    rw [Meter.charge_eq_error (Nat.ne_of_gt hmany.1) hexceeded]
    exact .tooManySteps hlong hmany.1 hmany.2 (Number.isLeast_leastAbove hmany.2)
  · have hok : (Meter.mk 0 limits.maxSteps).charge cost = .ok ⟨0 + cost, limits.maxSteps⟩ := by
      refine if_neg fun hboth => hmany ⟨Nat.pos_of_ne_zero hboth.1, ?_⟩
      exact Number.exceededBy_iff_below.mp (hsum ▸ hboth.2)
    rw [hok]
    exact .answered hlong hmany

/-- Limits are transparent.  Without them every call returns an answer, and its steps are
steps taken one at a time: whatever the meter, the work ticks so many times and then
returns that answer.  Under any limits a call ends as its steps and the length of the
text say; and what it returns under some limits, it returns under all that are not
smaller. -/
theorem ends_under_limits (call : Call α) (a : Automaton) (x : Text) (limits : Limits) :
    ∃ answer, call.outcome a x .unlimited = .ok answer ∧
      (∀ meter, call.work a x meter =
        (Meter.ticks (call.steps a x) meter).map fun after => (answer, after)) ∧
      Ends x limits (call.steps a x) answer (call.outcome a x limits) ∧
      ∀ raised, limits.AtMost raised →
        ∀ b, call.outcome a x limits = .ok b → call.outcome a x raised = .ok b := by
  obtain ⟨answer, cost, htakes⟩ := call.exists_takes a x
  rw [steps_eq htakes]
  refine ⟨answer, ?_, fun meter => ?_, ends_of_takes htakes limits, ?_⟩
  · exact (ends_of_takes htakes .unlimited).eq_ok_iff.mpr ⟨rfl, id, fun hmany => hmany.2⟩
  · rw [htakes, Meter.charge_eq_ticks]
  · intro raised hle b hb
    exact (ends_of_takes htakes limits).of_atMost (ends_of_takes htakes raised) hle hb

/-- A ceiling of two and a half steps is met at the third one. -/
example : Call.findAll.outcome Automaton.looping (.ofString "ab")
    ⟨.infinity, .ofDecimal ⟨25, 1⟩⟩ = .error ⟨.steps, .ofDecimal ⟨25, 1⟩, 3⟩ := by
  decide +kernel

end Call

end RegexEngine
