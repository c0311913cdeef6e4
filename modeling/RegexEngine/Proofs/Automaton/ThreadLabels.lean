/-
# `Automaton.closeThreads` — which threads a closure holds

A closure is told by its seeds alone.  Its states are those that some seed reaches, each of
them once, so no more states are passed than there are, whatever cycles the transitions
form.  A state has the start of the first seed of the list that reaches it
(`firstReaching_iff`).  Where the seeds ascend, this is the least start that any seed could
give it (`FirstReaching.isLeast`), and the threads ascend as well.

The starts are labels and nothing else: which states a closure has depends on the states of
the seeds, in whatever order and however often they are given (`mem_states_closeThreads`).
So the closure of a set of states has the states of any threaded closure of the set.
-/
import Mathlib.Data.List.Perm.Subperm
import Mathlib.Order.Bounds.Defs
import RegexEngine.Proofs.Automaton.Reachability

namespace RegexEngine.Automaton

variable {a : Automaton} {x : Text} {p q start : Nat} {seeds : List Thread}

/-- The first seed that reaches a state cuts the list in two: those in front of it do not
reach the state. -/
theorem firstReaching_iff : a.FirstReaching x p seeds q start ↔
    ∃ before seed behind, seeds = before ++ seed :: behind ∧ a.Reaches x p seed.state q ∧
      seed.start = start ∧ ∀ s ∈ before, ¬ a.Reaches x p s.state q := by
  induction seeds with
  | nil =>
      refine iff_of_false id ?_
      rintro ⟨before, seed, behind, hseeds, _⟩
      exact absurd hseeds.symm (List.append_ne_nil_of_right_ne_nil before (List.cons_ne_nil _ _))
  | cons first rest ih =>
      constructor
      · rintro (⟨hreach, hstart⟩ | ⟨hno, hrest⟩)
        · exact ⟨[], first, rest, rfl, hreach, hstart, List.forall_mem_nil _⟩
        · obtain ⟨before, seed, behind, rfl, hreach, hstart, hbefore⟩ := ih.mp hrest
          exact ⟨first :: before, seed, behind, rfl, hreach, hstart,
            List.forall_mem_cons.mpr ⟨hno, hbefore⟩⟩
      · rintro ⟨before, seed, behind, hseeds, hreach, hstart, hbefore⟩
        cases before with
        | nil =>
            obtain ⟨rfl, rfl⟩ := List.cons.inj hseeds
            exact Or.inl ⟨hreach, hstart⟩
        | cons s before =>
            obtain ⟨rfl, hrest⟩ := List.cons.inj hseeds
            obtain ⟨hno, hbefore⟩ := List.forall_mem_cons.mp hbefore
            exact Or.inr ⟨hno, ih.mpr ⟨before, seed, behind, hrest, hreach, hstart, hbefore⟩⟩

/-- A state has one first seed, so one start. -/
theorem FirstReaching.unique {start' : Nat} (h : a.FirstReaching x p seeds q start)
    (h' : a.FirstReaching x p seeds q start') : start = start' := by
  induction seeds with
  | nil => exact absurd h id
  | cons first rest ih =>
      rcases h with ⟨hreach, rfl⟩ | ⟨hno, hrest⟩
      · rcases h' with ⟨_, hstart⟩ | ⟨hno, _⟩
        · exact hstart
        · exact absurd hreach hno
      · rcases h' with ⟨hreach, _⟩ | ⟨_, hrest'⟩
        · exact absurd hreach hno
        · exact ih hrest hrest'

/-- Where seeds ascend, no seed that reaches the state is earlier than the first one. -/
theorem FirstReaching.isLeast (hsorted : seeds.Pairwise (·.start ≤ ·.start))
    (h : a.FirstReaching x p seeds q start) :
    IsLeast {s | ∃ seed ∈ seeds, a.Reaches x p seed.state q ∧ seed.start = s} start := by
  refine ⟨h.exists_seed, ?_⟩
  rintro _ ⟨seed, hseed, hreach, rfl⟩
  obtain ⟨start', hle, hfirst⟩ := exists_firstReaching hsorted hseed hreach
  exact h.unique hfirst ▸ hle

/-- What some seed reaches has a first seed that reaches it. -/
theorem exists_firstReaching_iff :
    (∃ start, a.FirstReaching x p seeds q start) ↔ ∃ seed ∈ seeds, a.Reaches x p seed.state q := by
  constructor
  · rintro ⟨start, h⟩
    obtain ⟨seed, hseed, hreach, _⟩ := h.exists_seed
    exact ⟨seed, hseed, hreach⟩
  · rintro ⟨seed, hseed, hreach⟩
    induction seeds with
    | nil => exact absurd hseed List.not_mem_nil
    | cons first rest ih =>
        by_cases hfirst : a.Reaches x p first.state q
        · exact ⟨first.start, Or.inl ⟨hfirst, rfl⟩⟩
        · have hrest : seed ∈ rest := by
            refine (List.mem_cons.mp hseed).resolve_left ?_
            rintro rfl
            exact hfirst hreach
          obtain ⟨start, h⟩ := ih hrest
          exact ⟨start, Or.inr ⟨hfirst, h⟩⟩

section Threads

variable (ha : a.WellFormed) (hseeds : ∀ seed ∈ seeds, seed.state < a.size)

include ha hseeds

/-- The states of a closure are what the seeds reach. -/
theorem mem_states_closeThreads :
    q ∈ (a.closeThreads x p seeds).map (·.state) ↔ ∃ seed ∈ seeds, a.Reaches x p seed.state q := by
  rw [← exists_firstReaching_iff, List.mem_map]
  constructor
  · rintro ⟨t, ht, rfl⟩
    exact ⟨t.start, (mem_closeThreads ha hseeds).mp ht⟩
  · rintro ⟨start, h⟩
    exact ⟨⟨q, start⟩, (mem_closeThreads ha hseeds).mpr h, rfl⟩

/-- No more states are passed than there are. -/
theorem length_closeThreads_le : (a.closeThreads x p seeds).length ≤ a.size := by
  have hlt : ∀ q ∈ (a.closeThreads x p seeds).map (·.state), q < a.size := by
    intro q hq
    obtain ⟨seed, hseed, hreach⟩ := (mem_states_closeThreads ha hseeds).mp hq
    exact hreach.lt ha (hseeds seed hseed)
  have hsub : (a.closeThreads x p seeds).map (·.state) ⊆ List.range a.size := fun q hq =>
    List.mem_range.mpr (hlt q hq)
  have hle := ((nodup_closeThreads ha hseeds).subperm hsub).length_le
  rwa [List.length_map, List.length_range] at hle

/-- A set of states has the closure of the seeds with these states. -/
theorem closure_perm {states : List Nat} (hstates : ∀ q, q ∈ states ↔ q ∈ seeds.map (·.state)) :
    (a.closure x p states).Perm ((a.closeThreads x p seeds).map (·.state)) := by
  have hlt : ∀ q ∈ states, q < a.size := by
    intro q hq
    obtain ⟨seed, hseed, rfl⟩ := List.mem_map.mp ((hstates q).mp hq)
    exact hseeds seed hseed
  refine (List.perm_ext_iff_of_nodup ?_ (nodup_closeThreads ha hseeds)).mpr ?_
  · exact nodup_closeThreads ha (lt_of_mem_seeds hlt)
  · intro q
    rw [mem_closure ha hlt, mem_states_closeThreads ha hseeds]
    constructor
    · rintro ⟨r, hr, hreach⟩
      obtain ⟨seed, hseed, rfl⟩ := List.mem_map.mp ((hstates r).mp hr)
      exact ⟨seed, hseed, hreach⟩
    · rintro ⟨seed, hseed, hreach⟩
      exact ⟨seed.state, (hstates _).mpr (List.mem_map_of_mem hseed), hreach⟩

end Threads

/-- The states of a closure are those that the seeds reach, each once; each has the start of
the first seed that reaches it.  Seeds in ascending order give every state the least start
that it can have, and the threads are in ascending order.  The closure of a list of states
has the same states as that of any seeds with these states, in any order. -/
theorem closeThreads_labels (ha : a.WellFormed) (x : Text) (p : Nat) (seeds : List Thread)
    (hseeds : ∀ seed ∈ seeds, seed.state < a.size) :
    (∀ q, q ∈ (a.closeThreads x p seeds).map (·.state) ↔
      ∃ seed ∈ seeds, a.Reaches x p seed.state q) ∧
    ((a.closeThreads x p seeds).map (·.state)).Nodup ∧
    (a.closeThreads x p seeds).length ≤ a.size ∧
    (∀ t ∈ a.closeThreads x p seeds, ∃ before seed behind, seeds = before ++ seed :: behind ∧
      a.Reaches x p seed.state t.state ∧ seed.start = t.start ∧
      ∀ s ∈ before, ¬ a.Reaches x p s.state t.state) ∧
    (seeds.Pairwise (·.start ≤ ·.start) →
      (∀ t ∈ a.closeThreads x p seeds,
        IsLeast {s | ∃ seed ∈ seeds, a.Reaches x p seed.state t.state ∧ seed.start = s} t.start) ∧
      (a.closeThreads x p seeds).Pairwise (·.start ≤ ·.start)) ∧
    ∀ states : List Nat, (∀ q, q ∈ states ↔ q ∈ seeds.map (·.state)) →
      (a.closure x p states).Perm ((a.closeThreads x p seeds).map (·.state)) := by
  refine ⟨fun q => mem_states_closeThreads ha hseeds, nodup_closeThreads ha hseeds,
    length_closeThreads_le ha hseeds, ?_, ?_, fun states hstates => closure_perm ha hseeds hstates⟩
  · intro t ht
    exact firstReaching_iff.mp ((mem_closeThreads ha hseeds).mp ht)
  · intro hsorted
    refine ⟨fun t ht => ?_, pairwise_closeThreads ha hseeds hsorted⟩
    exact ((mem_closeThreads ha hseeds).mp ht).isLeast hsorted

/-- A cycle of silent transitions, entered in front of the end and left at the start of a
line only. -/
def guardedCycle : Automaton where
  states := #[[.epsilon 1], [.epsilon 0, .assert .start 2], [], [.assert .stop 1]]
  start := 0
  accept := 2
  flags := {}

/-- At the end of a text the first seed takes the cycle, and the others find it taken. -/
theorem guardedCycle_labels :
    guardedCycle.WellFormed ∧
      (∀ seed ∈ [⟨3, 0⟩, ⟨1, 1⟩, ⟨2, 1⟩, ⟨1, 2⟩], Thread.state seed < guardedCycle.size) ∧
      guardedCycle.closeThreads (.ofString "ab") 2 [⟨3, 0⟩, ⟨1, 1⟩, ⟨2, 1⟩, ⟨1, 2⟩] =
        [⟨3, 0⟩, ⟨1, 0⟩, ⟨0, 0⟩, ⟨2, 1⟩] ∧
      IsLeast {s | ∃ seed ∈ [⟨3, 0⟩, ⟨1, 1⟩, ⟨2, 1⟩, ⟨1, 2⟩],
        guardedCycle.Reaches (.ofString "ab") 2 (Thread.state seed) 1 ∧ seed.start = s} 0 ∧
      (guardedCycle.closure (.ofString "ab") 2 [1, 2, 3]).Perm [3, 1, 0, 2] := by
  have hwell : guardedCycle.WellFormed := by decide
  have hseeds : ∀ seed ∈ [⟨3, 0⟩, ⟨1, 1⟩, ⟨2, 1⟩, ⟨1, 2⟩],
      Thread.state seed < guardedCycle.size := by decide
  have hclosed : guardedCycle.closeThreads (.ofString "ab") 2
      [⟨3, 0⟩, ⟨1, 1⟩, ⟨2, 1⟩, ⟨1, 2⟩] = [⟨3, 0⟩, ⟨1, 0⟩, ⟨0, 0⟩, ⟨2, 1⟩] := by
    decide +kernel
  obtain ⟨_, _, _, _, hascending, hstates⟩ := closeThreads_labels hwell (.ofString "ab") 2
    _ hseeds
  rw [hclosed] at hascending hstates
  have hleast := (hascending (by decide)).1 ⟨1, 0⟩ (by decide)
  have hperm := hstates [1, 2, 3] (by intro q; simp; omega)
  exact ⟨hwell, hseeds, hclosed, hleast, hperm⟩

end RegexEngine.Automaton
