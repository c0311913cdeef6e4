/-
# `Meter.charge` — steps that are counted change no answer

A call is charged in portions, one for each symbol.  A portion is as good as its steps
counted one after the other (`charge_eq_ticks`): whether the ceiling is met by the
first step of a portion or by a later one, the error names the same count.  So two
portions are as good as one (`charge_bind_charge`).

It follows that whatever is computed under a meter takes a number of steps and gives
an answer that the text and the automaton fix (`Takes`).  A ceiling can replace the
answer by an error, and can do nothing else.  Runs and searches are such computations,
and so is a scan, whose searches share one meter.
-/
import RegexEngine.Match.Full
import RegexEngine.Match.Search
import RegexEngine.Proofs.Number.Value

namespace RegexEngine

/-! ## Charging -/

namespace Meter

variable {m : Meter} {j k : Nat}

/-- Count one step: above the ceiling it is an error, which names the count. -/
def tick (m : Meter) : Except LimitError Meter :=
  if m.limit.exceededBy (m.steps + 1) then .error ⟨.steps, m.limit, m.steps + 1⟩
  else .ok (m.advance 1)

/-- Count steps one after the other. -/
def ticks : Nat → Meter → Except LimitError Meter
  | 0, m => .ok m
  | k + 1, m => m.tick.bind (ticks k)

theorem ticks_add (j k : Nat) (m : Meter) : ticks (j + k) m = (ticks j m).bind (ticks k) := by
  induction j generalizing m with
  | zero =>
      rw [Nat.zero_add]
      rfl
  | succ j ih =>
      rw [Nat.succ_add, ticks, ticks]
      cases m.tick with
      | error e => rfl
      | ok next => exact ih next

/-- The error of a portion that does not fit. -/
theorem charge_eq_error (hk : k ≠ 0) (h : m.limit.exceededBy (m.steps + k) = true) :
    m.charge k = .error ⟨.steps, m.limit, max (m.steps + 1) m.limit.leastAbove⟩ :=
  if_pos ⟨hk, h⟩

/-- A portion that fits is counted. -/
theorem charge_eq_ok (h : ¬ m.limit.exceededBy (m.steps + k) = true) :
    m.charge k = .ok (m.advance k) :=
  if_neg fun hboth => h hboth.2

/-- A portion is charged as if its steps were counted one after the other. -/
theorem charge_eq_ticks (k : Nat) (m : Meter) : m.charge k = ticks k m := by
  induction k generalizing m with
  | zero => exact m.charge_zero
  | succ k ih =>
      rw [ticks, tick]
      have hsum : (m.advance 1).steps + k = m.steps + (k + 1) := by
        simp only [advance]
        omega
      by_cases hone : m.limit.exceededBy (m.steps + 1) = true
      · have hall : m.limit.exceededBy (m.steps + (k + 1)) = true :=
          Number.exceededBy_mono (by omega) hone
        have hleast : m.limit.leastAbove ≤ m.steps + 1 := (Number.leastAbove_le_iff hone).mpr hone
        rw [if_pos hone, charge_eq_error (Nat.succ_ne_zero k) hall, Nat.max_eq_left hleast]
        rfl
      rw [if_neg hone]
      show _ = ticks k (m.advance 1)
      rw [← ih]
      by_cases hall : m.limit.exceededBy (m.steps + (k + 1)) = true
      · -- The first step fits, so the count that does not is among those behind it.
        have hleast : ¬ m.limit.leastAbove ≤ m.steps + 1 := fun hle =>
          hone ((Number.leastAbove_le_iff hall).mp hle)
        have hk : k ≠ 0 := by
          rintro rfl
          exact hone hall
        have hrest : (m.advance 1).limit.exceededBy ((m.advance 1).steps + k) = true := by
          rw [hsum]
          exact hall
        rw [charge_eq_error (Nat.succ_ne_zero k) hall, charge_eq_error hk hrest]
        have hmax : max ((m.advance 1).steps + 1) (m.advance 1).limit.leastAbove =
            max (m.steps + 1) m.limit.leastAbove := by
          simp only [advance]
          omega
        rw [hmax]
        rfl
      · have hrest : ¬ (m.advance 1).limit.exceededBy ((m.advance 1).steps + k) = true := by
          rw [hsum]
          exact hall
        rw [charge_eq_ok hall, charge_eq_ok hrest, advance_advance, Nat.add_comm]

/-- Charging two portions is charging their sum. -/
theorem charge_bind_charge (m : Meter) (j k : Nat) :
    (m.charge j).bind (·.charge k) = m.charge (j + k) := by
  have htick : (fun next : Meter => next.charge k) = ticks k := funext fun next =>
    charge_eq_ticks k next
  rw [htick, charge_eq_ticks, charge_eq_ticks, ticks_add]

/-- Charging fails in one way only. -/
theorem kind_of_charge_eq_error {e : LimitError} (h : m.charge k = .error e) :
    e.kind = .steps := by
  unfold charge at h
  split at h
  · cases h
    rfl
  · cases h

end Meter

/-! ## Computations under a meter -/

/-- A computation takes `cost` steps to its answer, whatever the meter. -/
def Takes {α : Type} (f : Meter → Except LimitError (α × Meter)) (cost : Nat) (answer : α) :
    Prop :=
  ∀ m, f m = (m.charge cost).map fun after => (answer, after)

namespace Takes

variable {α β : Type} {f : Meter → Except LimitError (α × Meter)}
  {g : Meter → Except LimitError (β × Meter)} {cost more : Nat} {answer : α} {result : β}

theorem nothing (h : ∀ m, f m = .ok (answer, m)) : Takes f 0 answer := by
  intro m
  rw [h, Meter.charge_zero]
  rfl

/-- A portion that is charged first is added. -/
theorem charge {f' : Meter → Except LimitError (α × Meter)} {portion : Nat}
    (hf : Takes f cost answer) (h : ∀ m, f' m = (m.charge portion).bind f) :
    Takes f' (portion + cost) answer := by
  intro m
  rw [h, ← Meter.charge_bind_charge]
  cases m.charge portion with
  | error e => rfl
  | ok charged => exact hf charged

/-- What follows a computation goes on with its meter. -/
theorem bind {next : α → Meter → Except LimitError (β × Meter)} (hf : Takes f cost answer)
    (hnext : Takes (next answer) more result)
    (h : ∀ m, g m = (f m).bind fun r => next r.1 r.2) : Takes g (cost + more) result := by
  refine hnext.charge fun m => ?_
  rw [h, hf]
  cases m.charge cost <;> rfl

theorem map {view : α → β} (hf : Takes f cost answer)
    (h : ∀ m, g m = (f m).map fun r => (view r.1, r.2)) : Takes g cost (view answer) := by
  intro m
  rw [h, hf]
  cases m.charge cost <;> rfl

end Takes

namespace Automaton

/-! ## A whole run -/

theorem runFrom_cons (a : Automaton) (x : Text) (p : Nat) (states : List Nat) (c : Nat)
    (rest : List Nat) (meter : Meter) :
    let behind := p + Symbol.width c
    let next := a.closure x behind (states.flatMap (a.symbolTargets (a.flags.variants c)))
    a.runFrom x p states meter (c :: rest) = (meter.charge (a.stepCost states)).bind fun charged =>
      if next.isEmpty then .ok (false, charged) else a.runFrom x behind next charged rest := by
  intro behind next
  rw [runFrom]
  cases meter.charge (a.stepCost states) <;> rfl

/-- What a run is charged, and what it answers, does not depend on the meter. -/
theorem runFrom_takes (a : Automaton) (x : Text) (p : Nat) (states : List Nat)
    (cs : List Nat) :
    ∃ answer cost, Takes (a.runFrom x p states · cs) cost answer := by
  induction cs generalizing p states with
  | nil => exact ⟨_, _, .nothing fun _ => rfl⟩
  | cons c rest ih =>
      let behind := p + Symbol.width c
      let next := a.closure x behind (states.flatMap (a.symbolTargets (a.flags.variants c)))
      have hafter : ∃ answer cost, Takes (fun charged =>
          if next.isEmpty then .ok (false, charged) else a.runFrom x behind next charged rest)
          cost answer := by
        by_cases hempty : next.isEmpty = true
        · exact ⟨_, _, .nothing fun _ => if_pos hempty⟩
        · simp only [if_neg hempty]
          exact ih behind next
      obtain ⟨answer, cost, htakes⟩ := hafter
      exact ⟨_, _, htakes.charge (a.runFrom_cons x p states c rest)⟩

theorem run_takes (a : Automaton) (x : Text) : ∃ answer cost, Takes (a.run x) cost answer :=
  a.runFrom_takes x 0 (a.closure x 0 [a.start]) x.symbols

/-! ## A search -/

/-- One round of a search: it ends, or charges its threads and reads a symbol. -/
theorem searchFrom_takes (a : Automaton) (x : Text) (p : Nat) (threads : List Thread)
    (best : Option (Nat × Nat)) :
    ∃ found cost, Takes (a.searchFrom x p threads best) cost found := by
  induction hleft : x.length - p using Nat.strongRecOn generalizing p threads best with
  | ind left ih =>
      let closed := a.closeThreads x p (a.seedsAt p threads best)
      let known := a.improve p closed best
      let alive := contenders known closed
      by_cases hdone : (known.isSome && alive.isEmpty) = true
      · refine ⟨known, 0, .nothing fun meter => ?_⟩
        rw [searchFrom]
        exact if_pos hdone
      by_cases inside : p < x.length
      · have hlt : x.length - (p + Symbol.width (x.symbolAt p inside)) < left := by
          have := Symbol.width_pos (x.symbolAt p inside)
          omega
        obtain ⟨found, cost, hrest⟩ := ih _ hlt _
          (a.stepThreads (a.flags.variants (x.symbolAt p inside)) alive) known rfl
        refine ⟨found, a.threadCost alive + cost, hrest.charge fun meter => ?_⟩
        rw [searchFrom]
        refine (if_neg hdone).trans ((dif_pos inside).trans ?_)
        split
        · rename_i e hcharge
          exact (congrArg (Except.bind · _) hcharge).symm
        · rename_i charged hcharge
          exact (congrArg (Except.bind · _) hcharge).symm
      · refine ⟨known, 0, .nothing fun meter => ?_⟩
        rw [searchFrom]
        exact (if_neg hdone).trans (dif_neg inside)

theorem findFrom_takes (a : Automaton) (x : Text) (offset : Nat) :
    ∃ found cost, Takes (a.findFrom x offset) cost found := by
  by_cases hout : x.length < offset
  · exact ⟨none, 0, .nothing fun _ => if_pos hout⟩
  · obtain ⟨best, cost, hsearch⟩ := a.searchFrom_takes x offset [] none
    refine ⟨best.map fun ends => ⟨ends.1, ends.2, x.slice ends.1 ends.2⟩, cost,
      hsearch.map fun meter => ?_⟩
    rw [findFrom, if_neg hout]
    cases a.searchFrom x offset [] none meter <;> rfl

/-! ## A scan -/

/-- How a scan goes on behind a search. -/
def scanBehind (a : Automaton) (x : Text) (fuel : Nat) :
    Option Span → Meter → Except LimitError (List Span × Meter)
  | none, meter => .ok ([], meter)
  | some span, meter =>
      match resumeAfter? x span with
      | none => .ok ([span], meter)
      | some next => (a.findAllFrom x fuel next meter).map fun r => (span :: r.1, r.2)

theorem findAllFrom_succ (a : Automaton) (x : Text) (fuel offset : Nat) (meter : Meter) :
    a.findAllFrom x (fuel + 1) offset meter =
      (a.findFrom x offset meter).bind fun r => a.scanBehind x fuel r.1 r.2 := by
  rw [findAllFrom]
  rcases a.findFrom x offset meter with e | ⟨_ | span, after⟩
  · rfl
  · rfl
  · show (match resumeAfter? x span with | none => _ | some next => _) =
      (match resumeAfter? x span with | none => _ | some next => _)
    cases resumeAfter? x span with
    | none => rfl
    | some next =>
        dsimp only
        cases a.findAllFrom x fuel next after <;> rfl

/-- The searches of a scan share one meter, so their steps are added. -/
theorem findAllFrom_takes (a : Automaton) (x : Text) (fuel offset : Nat) :
    ∃ spans cost, Takes (a.findAllFrom x fuel offset) cost spans := by
  induction fuel generalizing offset with
  | zero => exact ⟨_, _, .nothing fun _ => rfl⟩
  | succ fuel ih =>
      have hbehind : ∀ found, ∃ spans cost, Takes (a.scanBehind x fuel found) cost spans := by
        rintro (_ | span)
        · exact ⟨_, _, .nothing fun _ => rfl⟩
        · cases hresume : resumeAfter? x span with
          | none =>
              refine ⟨[span], 0, .nothing fun meter => ?_⟩
              rw [scanBehind, hresume]
          | some next =>
              obtain ⟨spans, cost, hrest⟩ := ih next
              refine ⟨span :: spans, cost, hrest.map fun meter => ?_⟩
              rw [scanBehind, hresume]
      obtain ⟨found, cost, hfind⟩ := a.findFrom_takes x offset
      obtain ⟨spans, more, hmore⟩ := hbehind found
      exact ⟨spans, _, hfind.bind hmore (a.findAllFrom_succ x fuel offset)⟩

end Automaton

end RegexEngine
