/-
# `Automaton.witness?` — a shortest text that is accepted

The automaton is searched in layers, one symbol per layer, without a text at
hand.  What the anchors need to know about the text is guessed along the way and
kept in the *configuration*: whether a line starts here, and, once a `$` has been
passed, whether the text ends here or a line feed comes next.  Each configuration
is expanded once, so the search ends, and a layer holds the texts of one length
only, so the first acceptance is a shortest one among the samples tried.

Within a layer, the silent transitions are followed depth first, the last one of
a state first.
-/
import RegexEngine.Automaton.Basic
import RegexEngine.Automaton.Marks
import RegexEngine.Automaton.Sample

namespace RegexEngine

/-- What a search has committed itself to about the rest of the text. -/
inductive Phase where
  /-- Anything may follow. -/
  | free
  /-- A line feed must follow. -/
  | newline
  /-- Nothing may follow. -/
  | ended
deriving DecidableEq, Inhabited, Repr

/-- A state with what is known about the position: whether a line starts there,
and what may follow. -/
structure Config where
  state : Nat
  lineStart : Bool
  phase : Phase
deriving DecidableEq, Inhabited, Repr

/-- A configuration and the symbols that lead to it, the last one first. -/
structure SearchNode where
  config : Config
  consumed : List Nat
deriving DecidableEq, Inhabited, Repr

namespace Phase

/-- The phases are numbered. -/
def index : Phase → Nat
  | .free => 0
  | .newline => 1
  | .ended => 2

end Phase

namespace Config

/-- The configurations are numbered, six for each state. -/
def index (c : Config) : Nat := 6 * c.state + 3 * c.lineStart.toNat + c.phase.index

/-- The configurations that one silent transition leads to.  A `$` may be passed
where the text ends, and in multiline mode where a line feed follows. -/
def silentMoves (c : Config) (multiline : Bool) : Transition → List Config
  | .epsilon t => [⟨t, c.lineStart, c.phase⟩]
  | .assert .start t => if c.lineStart then [⟨t, c.lineStart, c.phase⟩] else []
  | .assert .stop t =>
      (if c.phase = .newline then [] else [⟨t, c.lineStart, .ended⟩]) ++
        (if multiline && c.phase ≠ .ended then [⟨t, c.lineStart, .newline⟩] else [])
  | .symbol _ _ => []

end Config

/-- A layer that has been closed: the marks after it, its nodes in the order in
which they were reached, and the node that accepts, which is then the last of
them. -/
structure Layer where
  marks : Marks
  nodes : List SearchNode
  accepting : Option SearchNode
deriving DecidableEq, Inhabited, Repr

/-- The course of a search: the node that accepts, if one was found, and the
configurations in the order in which they were expanded. -/
structure Exploration where
  found : Option SearchNode
  expanded : List Config
deriving DecidableEq, Inhabited, Repr

namespace Automaton

/-- Whether the search has succeeded in a configuration. -/
def acceptsAt (a : Automaton) (c : Config) : Bool := c.state == a.accept && c.phase != .newline

/-- The nodes that silent transitions lead to, the last transition first. -/
def silentNodes (a : Automaton) (node : SearchNode) : List SearchNode :=
  ((a.out node.config.state).flatMap (node.config.silentMoves a.flags.multiline)).reverse.map
    (⟨·, node.consumed⟩)

/-- Close a layer under silent transitions, depth first from the nodes on a stack;
`passed` are the nodes of the layer so far, the last one first. -/
def closeLayer (a : Automaton) (marks : Marks) (passed : List SearchNode) :
    List SearchNode → Layer
  | [] => ⟨marks, passed.reverse, none⟩
  | node :: stack =>
      if fresh : marks.isFresh node.config.index then
        if a.acceptsAt node.config then
          ⟨marks.mark node.config.index, (node :: passed).reverse, some node⟩
        else
          have := marks.unmarked_mark fresh
          closeLayer a (marks.mark node.config.index) (node :: passed)
            (a.silentNodes node ++ stack)
      else closeLayer a marks passed stack
termination_by stack => (marks.unmarked, stack.length)

/-- The nodes of the next layer that one node leads to. -/
def symbolNodes (a : Automaton) (node : SearchNode) : List SearchNode :=
  if node.config.phase = .ended then []
  else
    (a.out node.config.state).flatMap fun
      | .symbol s t =>
          (s.samples a.flags (node.config.phase = .newline)).map fun c =>
            ⟨⟨t, a.flags.multiline && c == Symbol.newline, .free⟩, c :: node.consumed⟩
      | .epsilon _ | .assert _ _ => []

/-- Closing a layer marks as many configurations as the layer has nodes. -/
theorem unmarked_closeLayer (a : Automaton) (marks : Marks) (passed stack : List SearchNode) :
    (a.closeLayer marks passed stack).marks.unmarked +
        (a.closeLayer marks passed stack).nodes.length =
      marks.unmarked + passed.length := by
  fun_induction closeLayer a marks passed stack with
  | case1 marks passed => simp
  | case2 marks passed node stack fresh haccept =>
      have := marks.unmarked_mark fresh
      simp only [List.length_reverse, List.length_cons]
      omega
  | case3 marks passed node stack fresh haccept this ih =>
      simp only [List.length_cons] at ih
      omega
  | case4 marks passed node stack fresh ih => exact ih

/-- Search layer by layer. -/
def searchLayers (a : Automaton) (marks : Marks) (layer : List SearchNode) : Exploration :=
  let closed := a.closeLayer marks [] layer.reverse
  let expanded := closed.nodes.map (·.config)
  if closed.accepting.isSome then ⟨closed.accepting, expanded⟩
  else if empty : closed.nodes = [] then ⟨none, []⟩
  else
    have fewer : closed.marks.unmarked < marks.unmarked := by
      have := a.unmarked_closeLayer marks [] layer.reverse
      have := List.length_pos_iff.mpr empty
      simp only [closed, List.length_nil] at *
      omega
    let later := searchLayers a closed.marks (closed.nodes.flatMap a.symbolNodes)
    ⟨later.found, expanded ++ later.expanded⟩
termination_by marks.unmarked

/-- Search from the start of a text. -/
def exploration (a : Automaton) : Exploration :=
  a.searchLayers (.clear (6 * a.size)) [⟨⟨a.start, true, .free⟩, []⟩]

/-- The symbols of a shortest accepted text, if one was found. -/
def witnessSymbols? (a : Automaton) : Option (List Nat) :=
  a.exploration.found.map (·.consumed.reverse)

/-- A shortest accepted text, if one was found. -/
def witness? (a : Automaton) : Option Text := a.witnessSymbols?.map .ofSymbols

/-- Whether no accepted text was found. -/
def isEmpty (a : Automaton) : Bool := a.witness?.isNone

end Automaton

end RegexEngine
