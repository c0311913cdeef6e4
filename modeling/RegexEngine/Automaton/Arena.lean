/-
# `Arena` — an automaton put together state by state

`Automaton.ofRegex` writes the transitions of every state down once, with all numbers
worked out beforehand.  Here the same automaton is put together by wiring.  States are
made one at a time, each with the next number, and the transitions between them are
added one at a time, also to states made long before.  A silent transition that a state
has already is not added again.

Every node of an expression gives a *fragment* of the arena, with an entry and an exit.
The exit has no transitions until something is built around the fragment:

    node            states made              then wired
    symbol, anchor  entry, exit              entry → exit
    empty           one, both entry and exit
    star            entry, exit, inner       entry → inner, entry → exit,
                                             inner → entry, inner → exit
    plus            inner, exit              inner → inner, inner → exit
    optional        entry, inner, exit       entry → inner, entry → exit, inner → exit
    concatenation   each operand             the one in front → this one, at once
    alternation     entry, branches, exit    entry → branch → exit, for each branch

The operands of a chain are collected first, by a loop that keeps the expressions still
to be looked at on a stack, and so does not descend into the nesting of the chain.

In the end one state is marked as accepting, the exit of the whole.
-/
import RegexEngine.Automaton.Basic

namespace RegexEngine

/-- A state under construction. -/
structure Draft where
  id : Nat
  accepting : Bool
  transitions : List Transition
deriving DecidableEq, Inhabited, Repr

/-- The states made so far. -/
structure Arena where
  drafts : Array Draft
deriving DecidableEq, Inhabited, Repr

/-- A part of the arena that is entered and left at one state each. -/
structure Fragment where
  entry : Nat
  exit : Nat
deriving DecidableEq, Inhabited, Repr

/-! ## Chains -/

/-- A binary operator, whose operands form chains. -/
inductive Operator where
  | concat
  | alternate
deriving DecidableEq, Inhabited, Repr

namespace Regex

/-- The two operands of an expression that is made by the operator. -/
def operands? : Operator → Regex → Option (Regex × Regex)
  | .concat, .concat l r => some (l, r)
  | .alternate, .alternate l r => some (l, r)
  | _, _ => none

/-- The number of nodes of an expression. -/
def nodes : Regex → Nat
  | .empty | .symbol _ | .anchor _ => 1
  | .concat l r | .alternate l r => 1 + l.nodes + r.nodes
  | .star r | .plus r | .optional r => 1 + r.nodes

/-- The number of nodes of several expressions. -/
def totalNodes (rs : List Regex) : Nat := rs.foldr (fun r total => r.nodes + total) 0

theorem totalNodes_nil : totalNodes [] = 0 := rfl

theorem totalNodes_cons (r : Regex) (rs : List Regex) :
    totalNodes (r :: rs) = r.nodes + totalNodes rs :=
  rfl

theorem nodes_pos (r : Regex) : 0 < r.nodes := by
  cases r <;> simp only [nodes] <;> omega

/-- An operator is one node more than its operands. -/
theorem nodes_of_operands? {op : Operator} {r : Regex} {p : Regex × Regex}
    (h : operands? op r = some p) : r.nodes = 1 + p.1.nodes + p.2.nodes := by
  unfold operands? at h
  split at h
  · cases h
    rfl
  · cases h
    rfl
  · cases h

/-- The operands of the chains on a stack, in order.  The expression on top is taken off,
and its operands are put in its place, the left one on top. -/
def flattenChain (op : Operator) : List Regex → List Regex
  | [] => []
  | r :: stack =>
      match _h : operands? op r with
      | some p => flattenChain op (p.1 :: p.2 :: stack)
      | none => r :: flattenChain op stack
termination_by stack => totalNodes stack
decreasing_by
  · have := nodes_of_operands? _h
    simp only [totalNodes_cons]
    omega
  · have := nodes_pos r
    rw [totalNodes_cons]
    omega

theorem totalNodes_flattenChain_le (op : Operator) (stack : List Regex) :
    totalNodes (flattenChain op stack) ≤ totalNodes stack := by
  fun_induction flattenChain op stack with
  | case1 => exact Nat.le_refl _
  | case2 r stack p h ih =>
      have := nodes_of_operands? h
      simp only [totalNodes_cons] at ih ⊢
      omega
  | case3 r stack h ih => exact Nat.add_le_add_left ih r.nodes

/-- The operands of a chain have fewer nodes than the chain, since the operator is gone. -/
theorem totalNodes_flattenChain_lt {op : Operator} {r : Regex} {p : Regex × Regex}
    (h : operands? op r = some p) : totalNodes (flattenChain op [r]) < r.nodes := by
  have hle := totalNodes_flattenChain_le op [p.1, p.2]
  have hnodes := nodes_of_operands? h
  rw [flattenChain]
  split
  · rename_i p' h'
    obtain rfl : p = p' := Option.some.inj (h.symm.trans h')
    simp only [totalNodes_cons, totalNodes_nil] at hle
    omega
  · rename_i h'
    rw [h'] at h
    cases h

end Regex

/-! ## Making states and transitions -/

namespace Arena

/-- Make a state without transitions; its number is the number of states before it. -/
def createState : StateM Arena Nat := fun arena =>
  let id := arena.drafts.size
  (id, ⟨arena.drafts.push ⟨id, false, []⟩⟩)

/-- A row of transitions with one more, unless that is silent and there already. -/
def extendRow (tr : Transition) (row : List Transition) : List Transition :=
  if tr.isEpsilon && row.contains tr then row else row ++ [tr]

/-- Add a transition to a state. -/
def addTransition (q : Nat) (tr : Transition) : StateM Arena Unit := fun arena =>
  ((), ⟨arena.drafts.modify q fun draft =>
    { draft with transitions := extendRow tr draft.transitions }⟩)

/-- Add a silent transition between two states. -/
def addEpsilon (q target : Nat) : StateM Arena Unit := addTransition q (.epsilon target)

/-! ## Fragments -/

/-- Two states, joined by one transition. -/
def buildStep (transition : Nat → Transition) : StateM Arena Fragment := do
  let entry ← createState
  let exit ← createState
  addTransition entry (transition exit)
  return ⟨entry, exit⟩

/-- Wire an entry to every fragment, and every fragment to an exit. -/
def joinBranches (entry exit : Nat) : List Fragment → StateM Arena Unit
  | [] => return ()
  | fragment :: rest => do
      addEpsilon entry fragment.entry
      addEpsilon fragment.exit exit
      joinBranches entry exit rest

mutual

/-- The fragment of an expression. -/
def buildFragment (flags : Flags) (r : Regex) : StateM Arena Fragment :=
  match r with
  | .symbol s => buildStep (.symbol (s.normalize flags))
  | .anchor a => buildStep (.assert a)
  | .empty => do
      let state ← createState
      return ⟨state, state⟩
  | .concat l r => buildConcat flags none (Regex.flattenChain .concat [.concat l r])
  | .alternate l r => do
      let entry ← createState
      let fragments ← buildBranches flags (Regex.flattenChain .alternate [.alternate l r])
      let exit ← createState
      joinBranches entry exit fragments
      return ⟨entry, exit⟩
  | .star r => do
      let entry ← createState
      let exit ← createState
      let inner ← buildFragment flags r
      addEpsilon entry inner.entry
      addEpsilon entry exit
      addEpsilon inner.exit entry
      addEpsilon inner.exit exit
      return ⟨entry, exit⟩
  | .plus r => do
      let inner ← buildFragment flags r
      let exit ← createState
      addEpsilon inner.exit inner.entry
      addEpsilon inner.exit exit
      return ⟨inner.entry, exit⟩
  | .optional r => do
      let entry ← createState
      let inner ← buildFragment flags r
      let exit ← createState
      addEpsilon entry inner.entry
      addEpsilon entry exit
      addEpsilon inner.exit exit
      return ⟨entry, exit⟩
termination_by 2 * r.nodes
decreasing_by
  · have : Regex.totalNodes (Regex.flattenChain .concat [.concat l r]) <
        (Regex.concat l r).nodes := Regex.totalNodes_flattenChain_lt rfl
    omega
  · have : Regex.totalNodes (Regex.flattenChain .alternate [.alternate l r]) <
        (Regex.alternate l r).nodes := Regex.totalNodes_flattenChain_lt rfl
    omega
  all_goals
    simp only [Regex.nodes]
    omega

/-- The fragment of operands in a row, behind the fragment of those in front. -/
def buildConcat (flags : Flags) (front : Option Fragment) (rs : List Regex) :
    StateM Arena Fragment :=
  match rs with
  | [] =>
      match front with
      | some fragment => return fragment
      | none => do
          let state ← createState
          return ⟨state, state⟩
  | r :: rest => do
      let fragment ← buildFragment flags r
      match front with
      | none => buildConcat flags (some fragment) rest
      | some before =>
          addEpsilon before.exit fragment.entry
          buildConcat flags (some ⟨before.entry, fragment.exit⟩) rest
termination_by 2 * Regex.totalNodes rs + 1
decreasing_by
  · rw [Regex.totalNodes_cons]
    omega
  all_goals
    have := Regex.nodes_pos r
    rw [Regex.totalNodes_cons]
    omega

/-- The fragments of branches, one after the other. -/
def buildBranches (flags : Flags) (rs : List Regex) : StateM Arena (List Fragment) :=
  match rs with
  | [] => return []
  | r :: rest => do
      let fragment ← buildFragment flags r
      let fragments ← buildBranches flags rest
      return fragment :: fragments
termination_by 2 * Regex.totalNodes rs + 1
decreasing_by
  · rw [Regex.totalNodes_cons]
    omega
  · have := Regex.nodes_pos r
    rw [Regex.totalNodes_cons]
    omega

end

end Arena

/-! ## The whole automaton -/

/-- An automaton with its states written out, each with its number and with a mark if it
is accepting. -/
@[ext] structure Assembly where
  drafts : Array Draft
  start : Nat
  accept : Nat
  flags : Flags
deriving DecidableEq, Inhabited, Repr

namespace Assembly

/-- The automaton of an expression, put together state by state. -/
def ofRegex (r : Regex) (flags : Flags) : Assembly :=
  let (fragment, arena) := (Arena.buildFragment flags r).run ⟨#[]⟩
  { drafts := arena.drafts.modify fragment.exit fun draft => { draft with accepting := true }
    start := fragment.entry
    accept := fragment.exit
    flags := flags }

/-- The automaton alone. -/
def automaton (assembly : Assembly) : Automaton :=
  ⟨assembly.drafts.map (·.transitions), assembly.start, assembly.accept, assembly.flags⟩

end Assembly

end RegexEngine
