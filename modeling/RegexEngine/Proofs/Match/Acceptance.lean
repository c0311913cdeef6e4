/-
# `Automaton.accepts` decides whether a path spans the text

Between two symbols a run holds a set of states.  The invariant is that the set is
closed under silent steps; what remains to be read then decides the outcome alone:
some state of the set has a path over the rest of the text to the accepting state.
A set that has become empty has none, so giving up early loses nothing.
-/
import RegexEngine.Match.Full
import RegexEngine.Proofs.Automaton.Reachability

namespace RegexEngine

/-! ## Without ceilings -/

/-- A meter without ceiling is always charged. -/
theorem Meter.charge_of_infinity {m : Meter} (h : m.limit = .infinity) (k : Nat) :
    m.charge k = .ok (m.advance k) := by
  rw [charge, if_neg]
  rw [h]
  rintro ⟨_, hexceeded⟩
  cases hexceeded

theorem Meter.start_unlimited (x : Text) : Meter.start .unlimited x = .ok ⟨0, .infinity⟩ := rfl

namespace Automaton

variable {a : Automaton} {x : Text} {p : Nat}

/-- No silent step leads out of a set of states. -/
def SilentlyClosed (a : Automaton) (x : Text) (p : Nat) (states : List Nat) : Prop :=
  ∀ q ∈ states, ∀ t, a.Silent x p q t → t ∈ states

theorem SilentlyClosed.mem_of_reaches {states : List Nat} {q r : Nat}
    (h : a.SilentlyClosed x p states) (hq : q ∈ states) (hr : a.Reaches x p q r) :
    r ∈ states := by
  induction hr with
  | refl => exact hq
  | tail _ hlast ih => exact h _ ih _ hlast

theorem silentlyClosed_closure (ha : a.WellFormed) {states : List Nat}
    (hstates : ∀ q ∈ states, q < a.size) : a.SilentlyClosed x p (a.closure x p states) := by
  intro q hq t ht
  obtain ⟨r, hr, hreach⟩ := (mem_closure ha hstates).mp hq
  exact (mem_closure ha hstates).mpr ⟨r, hr, .tail hreach ht⟩

theorem lt_of_mem_closure (ha : a.WellFormed) {states : List Nat}
    (hstates : ∀ q ∈ states, q < a.size) {r : Nat} (hr : r ∈ a.closure x p states) :
    r < a.size := by
  obtain ⟨q, hq, hreach⟩ := (mem_closure ha hstates).mp hr
  exact hreach.lt ha (hstates q hq)

/-- Closing a set of states adds no state without a path from the set. -/
theorem exists_path_closure (ha : a.WellFormed) {states : List Nat}
    (hstates : ∀ q ∈ states, q < a.size) {w : Place} :
    (∃ q ∈ a.closure x p states, a.Path x ⟨q, p⟩ w) ↔ ∃ q ∈ states, a.Path x ⟨q, p⟩ w := by
  constructor
  · rintro ⟨r, hr, hpath⟩
    obtain ⟨q, hq, hreach⟩ := (mem_closure ha hstates).mp hr
    exact ⟨q, hq, hreach.path.trans hpath⟩
  · rintro ⟨q, hq, hpath⟩
    exact ⟨q, (mem_closure ha hstates).mpr ⟨q, hq, .refl⟩, hpath⟩

/-- At the end of the text, a closed set has a path to a state exactly if it holds
it. -/
theorem SilentlyClosed.exists_path_end {states : List Nat} {r : Nat}
    (h : a.SilentlyClosed x p states) : (∃ q ∈ states, a.Path x ⟨q, p⟩ ⟨r, p⟩) ↔ r ∈ states := by
  constructor
  · rintro ⟨q, hq, hpath⟩
    exact h.mem_of_reaches hq (hpath.reaches rfl)
  · intro hr
    exact ⟨r, hr, .refl⟩

/-- In front of a symbol, a closed set has a path exactly if the states that its
states reach by this symbol have one. -/
theorem SilentlyClosed.exists_path_symbol {states : List Nat} {c j : Nat} {w : Place}
    (h : a.SilentlyClosed x p states) (hread : x.Reads p c j) (hw : p < w.offset) :
    (∃ q ∈ states, a.Path x ⟨q, p⟩ w) ↔
      ∃ t ∈ states.flatMap (a.symbolTargets (a.flags.variants c)), a.Path x ⟨t, j⟩ w := by
  constructor
  · rintro ⟨q, hq, hpath⟩
    rcases hpath.first_symbol with ⟨heq, _⟩ | ⟨r, d, k, t, hr, hread', ht, hrest⟩
    · omega
    · obtain ⟨rfl, rfl⟩ := hread.unique hread'
      exact ⟨t, List.mem_flatMap.mpr ⟨r, h.mem_of_reaches hq hr, ht⟩, hrest⟩
  · rintro ⟨t, ht, hpath⟩
    obtain ⟨q, hq, ht⟩ := List.mem_flatMap.mp ht
    exact ⟨q, hq, .head (.of_mem_symbolTargets hread ht) hpath⟩

/-- A run without ceiling gives an answer: whether some state of its set has a path
over the rest of the text. -/
theorem runFrom_spec (ha : a.WellFormed) {states : List Nat} {meter : Meter} {cs : List Nat}
    (hp : p ≤ x.length) (hcs : x.symbolsFrom p = cs) (hmeter : meter.limit = .infinity)
    (hstates : ∀ q ∈ states, q < a.size) (hclosed : a.SilentlyClosed x p states) :
    ∃ b after, a.runFrom x p states meter cs = .ok (b, after) ∧
      (b = true ↔ ∃ q ∈ states, a.Path x ⟨q, p⟩ ⟨a.accept, x.length⟩) := by
  induction cs generalizing p states meter with
  | nil =>
      obtain rfl : p = x.length := by
        by_contra hne
        rw [Text.symbolsFrom_of_lt (Nat.lt_of_le_of_ne hp hne)] at hcs
        cases hcs
      refine ⟨_, _, rfl, ?_⟩
      rw [List.contains_iff_mem, hclosed.exists_path_end]
  | cons c rest ih =>
      have hlt : p < x.length := by
        by_contra hge
        rw [Text.symbolsFrom_of_ge (Nat.le_of_not_lt hge)] at hcs
        cases hcs
      rw [Text.symbolsFrom_of_lt hlt] at hcs
      obtain ⟨rfl, hrest⟩ := List.cons.inj hcs
      have hread := Text.reads_symbolAt hlt
      have htargets : ∀ t ∈ states.flatMap
          (a.symbolTargets (a.flags.variants (x.symbolAt p hlt))), t < a.size :=
        fun t ht => lt_of_mem_flatMap_symbolTargets ha ht
      rw [hclosed.exists_path_symbol hread hlt, ← exists_path_closure ha htargets, runFrom,
        Meter.charge_of_infinity hmeter]
      dsimp only
      by_cases hempty : (a.closure x (p + Symbol.width (x.symbolAt p hlt)) (states.flatMap
          (a.symbolTargets (a.flags.variants (x.symbolAt p hlt))))).isEmpty = true
      · rw [if_pos hempty]
        refine ⟨false, _, rfl, ?_⟩
        rw [List.isEmpty_iff.mp hempty]
        simp
      · rw [if_neg hempty]
        exact ih hread.le_length hrest hmeter (fun q hq => lt_of_mem_closure ha htargets hq)
          (silentlyClosed_closure ha htargets)

/-- Without ceilings, the whole text is accepted exactly if a path leads from the
start of the automaton and of the text to the accepting state at the end. -/
theorem accepts_spec (ha : a.WellFormed) (x : Text) :
    ∃ b, a.accepts x .unlimited = .ok b ∧
      (b = true ↔ a.Path x ⟨a.start, 0⟩ ⟨a.accept, x.length⟩) := by
  have hstart : ∀ q ∈ [a.start], q < a.size := by
    intro q hq
    rw [List.mem_singleton.mp hq]
    exact ha.start_lt
  have hmeter : (Meter.mk 0 .infinity).limit = .infinity := rfl
  obtain ⟨b, after, hrun, hiff⟩ := runFrom_spec ha (Nat.zero_le _) Text.symbolsFrom_zero
    hmeter (fun q hq => lt_of_mem_closure ha hstart hq) (silentlyClosed_closure ha hstart)
  refine ⟨b, ?_, ?_⟩
  · rw [accepts, Meter.start_unlimited]
    dsimp only
    rw [run, hrun]
    rfl
  · rw [hiff, exists_path_closure ha hstart]
    simp

end Automaton

end RegexEngine
