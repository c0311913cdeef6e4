/-
# `Checked.closeThreads` — closing with lookups that can fail

The library looks states up with a default: a number that names no state has no
transitions, is never marked, and so is passed over.  Here it is a trap.  A state is
looked up for its transitions (`Checked.row`) and for its mark (`Checked.markOnto`), and
in both places a number out of range ends the computation.

An automaton whose transitions stay inside of it never traps from states of its own
(`closeThreads_eq`, `closure_eq`), whatever the text and the position.
-/
import RegexEngine.Proofs.Automaton.Reachability
import RegexEngine.Proofs.Text.Cursor

namespace RegexEngine

namespace Checked

variable {α β : Type}

/-- What does not trap goes on. -/
theorem ok_bind (item : α) (f : α → Except Trap β) : ((.ok item : Except Trap α) >>= f) = f item :=
  rfl

/-! ## Accesses -/

/-- The transitions out of a state. -/
def row (a : Automaton) (q : Nat) : Except Trap (List Transition) :=
  match a.states[q]? with
  | none => .error (.noState q)
  | some row => .ok row

/-- The variants of a symbol; what is no symbol has none. -/
def variants (flags : Flags) (c : Nat) : Except Trap (List Nat) :=
  if c ≤ Symbol.last then .ok (flags.variants c) else .error (.noSymbol c)

/-- What the elements of a list give, one behind the other. -/
def collect (f : α → Except Trap (List β)) (items : List α) : Except Trap (List β) := do
  let parts ← items.mapM f
  return parts.flatten

theorem row_eq {a : Automaton} {q : Nat} (hq : q < a.size) : row a q = .ok (a.out q) := by
  have hat : a.states[q]? = some a.states[q] := Array.getElem?_eq_getElem hq
  rw [row, Automaton.out, hat]
  rfl

theorem variants_eq {flags : Flags} {c : Nat} (hc : c ≤ Symbol.last) :
    variants flags c = .ok (flags.variants c) :=
  if_pos hc

theorem mapM_eq {f : α → Except Trap β} {g : α → β} {items : List α}
    (h : ∀ item ∈ items, f item = .ok (g item)) : items.mapM f = .ok (items.map g) := by
  induction items with
  | nil => rfl
  | cons first rest ih =>
      obtain ⟨hfirst, hrest⟩ := List.forall_mem_cons.mp h
      rw [List.mapM_cons, hfirst, ok_bind, ih hrest]
      rfl

theorem collect_eq {f : α → Except Trap (List β)} {g : α → List β} {items : List α}
    (h : ∀ item ∈ items, f item = .ok (g item)) : collect f items = .ok (items.flatMap g) := by
  rw [collect, mapM_eq h]
  rfl

/-! ## Transitions -/

/-- Where a transition leads that is open at a position and consumes nothing. -/
def silentTarget? (x : Text) (position : Nat) (flags : Flags) : Transition → Option Nat
  | .epsilon t => some t
  | .assert anchor t => if anchor.holds x position flags then some t else none
  | .symbol _ _ => none

/-- Where a transition leads that consumes a symbol with the given variants. -/
def symbolTarget? (variants : List Nat) : Transition → Option Nat
  | .symbol s t => if s.accepts variants then some t else none
  | .epsilon _ | .assert _ _ => none

/-- The states that a state leads to without consuming anything. -/
def silentTargets (a : Automaton) (x : Text) (position q : Nat) : Except Trap (List Nat) := do
  let row ← row a q
  return row.filterMap (silentTarget? x position a.flags)

/-- The states that a state leads to by a symbol with the given variants. -/
def symbolTargets (a : Automaton) (variants : List Nat) (q : Nat) : Except Trap (List Nat) := do
  let row ← row a q
  return row.filterMap (symbolTarget? variants)

variable {a : Automaton} {x : Text} {p q : Nat} {marks : Marks}

theorem silentTargets_eq (hq : q < a.size) :
    silentTargets a x p q = .ok (a.silentTargets x p q) := by
  rw [silentTargets, row_eq hq]
  refine congrArg Except.ok (congrArg (List.filterMap · _) ?_)
  funext tr
  cases tr <;> rfl

theorem symbolTargets_eq {variants : List Nat} (hq : q < a.size) :
    symbolTargets a variants q = .ok (a.symbolTargets variants q) := by
  rw [symbolTargets, row_eq hq]
  refine congrArg Except.ok (congrArg (List.filterMap · _) ?_)
  funext tr
  cases tr <;> rfl

/-! ## Closing -/

/-- Mark the fresh ones among some states and put them on a stack. -/
def markOnto (m : Marks) (stack : List Nat) : List Nat → Except Trap (Marks × List Nat)
  | [] => .ok (m, stack)
  | q :: rest =>
      if m.isFresh q then markOnto (m.mark q) (q :: stack) rest
      else if q < m.size then markOnto m stack rest
      else .error (.noState q)

theorem eq_of_markOnto {m : Marks} {stack numbers : List Nat} {result : Marks × List Nat}
    (h : markOnto m stack numbers = .ok result) : result = m.markOnto stack numbers := by
  fun_induction markOnto m stack numbers with
  | case1 m stack => exact (Except.ok.inj h).symm
  | case2 m stack q rest hfresh ih =>
      rw [Marks.markOnto, if_pos hfresh]
      exact ih h
  | case3 m stack q rest hfresh _ ih =>
      rw [Marks.markOnto, if_neg hfresh]
      exact ih h
  | case4 => cases h

/-- Follow silent transitions from the states on a stack, until no fresh state is left. -/
def explore (a : Automaton) (x : Text) (position : Nat) (marks : Marks) (found : List Nat) :
    List Nat → Except Trap (Marks × List Nat)
  | [] => .ok (marks, found)
  | q :: stack =>
      match silentTargets a x position q with
      | .error t => .error t
      | .ok targets =>
          match _marked : markOnto marks [] targets with
          | .error t => .error t
          | .ok next => explore a x position next.1 (next.2 ++ found) (next.2 ++ stack)
termination_by stack => marks.unmarked + stack.length
decreasing_by
  have := marks.unmarked_markOnto [] targets
  rw [eq_of_markOnto _marked]
  simp only [List.length_append, List.length_cons, List.length_nil] at *
  omega

/-- Close seeds in order, given the states that earlier seeds have reached. -/
def closeFrom (a : Automaton) (x : Text) (position : Nat) (marks : Marks) :
    List Thread → Except Trap (List Thread)
  | [] => .ok []
  | seed :: rest =>
      if marks.isFresh seed.state then do
        let reach ← explore a x position (marks.mark seed.state) [seed.state] [seed.state]
        let others ← closeFrom a x position reach.1 rest
        return reach.2.reverse.map (⟨·, seed.start⟩) ++ others
      else if seed.state < marks.size then closeFrom a x position marks rest
      else .error (.noState seed.state)

/-- The threads that a list of seeds reaches at a position. -/
def closeThreads (a : Automaton) (x : Text) (position : Nat) (seeds : List Thread) :
    Except Trap (List Thread) :=
  closeFrom a x position (.clear a.size) seeds

/-- The states that some states reach at a position. -/
def closure (a : Automaton) (x : Text) (position : Nat) (states : List Nat) :
    Except Trap (List Nat) := do
  let threads ← closeThreads a x position (states.map (⟨·, 0⟩))
  return threads.map (·.state)

/-! ## No traps -/

theorem markOnto_eq {stack numbers : List Nat} (h : ∀ r ∈ numbers, r < marks.size) :
    markOnto marks stack numbers = .ok (marks.markOnto stack numbers) := by
  fun_induction markOnto marks stack numbers with
  | case1 => rfl
  | case2 m stack q rest hfresh ih =>
      rw [Marks.markOnto, if_pos hfresh]
      exact ih fun r hr => by rw [Marks.size_mark]; exact h r (List.mem_cons_of_mem q hr)
  | case3 m stack q rest hfresh _ ih =>
      rw [Marks.markOnto, if_neg hfresh]
      exact ih fun r hr => h r (List.mem_cons_of_mem q hr)
  | case4 m stack q rest _ hout => exact absurd (h q List.mem_cons_self) hout

/-- One step of an exploration, if its lookups succeed. -/
theorem explore_cons {found stack targets : List Nat} {next : Marks × List Nat}
    (htargets : silentTargets a x p q = .ok targets)
    (hnext : markOnto marks [] targets = .ok next) :
    explore a x p marks found (q :: stack) =
      explore a x p next.1 (next.2 ++ found) (next.2 ++ stack) := by
  rw [explore, htargets]
  dsimp only
  split
  · rename_i hmarked
    cases hmarked.symm.trans hnext
  · rename_i hmarked
    cases hmarked.symm.trans hnext
    rfl

/-- The stack of an exploration holds states, and its marks are marks of states. -/
theorem explore_eq (ha : a.WellFormed) (found : List Nat) {stack : List Nat}
    (hsize : marks.size = a.size) (hstack : ∀ r ∈ stack, r < a.size) :
    explore a x p marks found stack = .ok (a.explore x p marks found stack) ∧
      (a.explore x p marks found stack).1.size = a.size := by
  fun_induction Automaton.explore a x p marks found stack with
  | case1 marks found =>
      rw [explore]
      exact ⟨rfl, hsize⟩
  | case2 marks found q stack next ih =>
      obtain ⟨hq, hrest⟩ := List.forall_mem_cons.mp hstack
      have htargets : ∀ r ∈ a.silentTargets x p q, r < marks.size := fun r hr => by
        rw [hsize]
        exact (Automaton.mem_silentTargets.mp hr).lt ha
      obtain ⟨new, hnext, _, hnew, _, hsize'⟩ := marks.markOnto_spec [] htargets
      rw [List.append_nil] at hnext
      have hstack' : ∀ r ∈ next.2 ++ stack, r < a.size := by
        intro r hr
        rcases List.mem_append.mp hr with hr | hr
        · rw [← hsize]
          exact htargets r ((hnew r).mp (hnext ▸ hr)).1
        · exact hrest r hr
      rw [explore_cons (silentTargets_eq hq) (markOnto_eq htargets)]
      exact ih (hsize'.trans hsize) hstack'

theorem closeFrom_eq (ha : a.WellFormed) {seeds : List Thread} (hsize : marks.size = a.size)
    (hseeds : ∀ seed ∈ seeds, seed.state < a.size) :
    closeFrom a x p marks seeds = .ok (a.closeFrom x p marks seeds) := by
  induction seeds generalizing marks with
  | nil => rfl
  | cons seed rest ih =>
      obtain ⟨hseed, hrest⟩ := List.forall_mem_cons.mp hseeds
      rw [closeFrom, Automaton.closeFrom]
      split
      · have hmark : (marks.mark seed.state).size = a.size := by rw [Marks.size_mark, hsize]
        obtain ⟨hexplore, hsize'⟩ := explore_eq (x := x) (p := p) ha [seed.state] hmark
          (List.forall_mem_singleton.mpr hseed)
        rw [hexplore, ok_bind, ih hsize' hrest]
        rfl
      · rw [if_pos (hsize.symm ▸ hseed)]
        exact ih hsize hrest

/-- Closing states of an automaton does not trap. -/
theorem closeThreads_eq (ha : a.WellFormed) {seeds : List Thread}
    (hseeds : ∀ seed ∈ seeds, seed.state < a.size) :
    closeThreads a x p seeds = .ok (a.closeThreads x p seeds) :=
  closeFrom_eq ha Marks.size_clear hseeds

theorem closure_eq (ha : a.WellFormed) {states : List Nat} (hstates : ∀ q ∈ states, q < a.size) :
    closure a x p states = .ok (a.closure x p states) := by
  rw [closure, closeThreads_eq ha (Automaton.lt_of_mem_seeds hstates)]
  rfl

end Checked

end RegexEngine
