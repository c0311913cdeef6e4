/-
# `Checked.witness?` — a search that names symbols and states only

The search for a witness has no text to read outside of.  What it can get wrong are
numbers: of states, which it takes from transitions, and of symbols, which it makes up.
Here a state is looked up for its transitions and for its mark, a symbol that is tried
has its variants looked up, and a symbol that is consumed is written; a number out of
range is a trap.

A search from a state of the automaton comes to states only, as for matching.  And what
it tries and consumes are symbols: a preferred sample is one, a gap between ranges ends
in front of a range or at the last symbol, and what is taken from the set itself is one
if the set is as matching expects it.  So the search does not trap, and finds what the
library's finds (`witness?_eq`).
-/
import RegexEngine.Proofs.Automaton.Emptiness
import RegexEngine.Proofs.Automaton.Lookup

namespace RegexEngine

namespace Checked

variable {a : Automaton} {flags : Flags} {s : SymbolSet} {node : SearchNode} {marks : Marks}
  {passed stack layer : List SearchNode}

/-! ## Samples -/

/-- Whether a set accepts a symbol. -/
def acceptsSymbol (flags : Flags) (s : SymbolSet) (c : Nat) : Except Trap Bool := do
  let variants ← variants flags c
  return s.accepts variants

/-- One symbol that a set accepts, if one is found; no symbol is tried behind it. -/
def sample? (flags : Flags) : SymbolSet → Except Trap (Option Nat)
  | .single c => return some c
  | .any => return SymbolClass.preferredSamples.head?
  | .among k => do
      match ← SymbolClass.preferredSamples.findM? (acceptsSymbol flags (.among k)) with
      | some c => return some c
      | none =>
          if k.negated then (SymbolClass.probes k.ranges).findM? (acceptsSymbol flags (.among k))
          else return k.ranges[0]?.map (·.first)

/-- The symbols to try for a step. -/
def samples (flags : Flags) (newlineOnly : Bool) (s : SymbolSet) : Except Trap (List Nat) := do
  let takesNewline ← acceptsSymbol flags s Symbol.newline
  if newlineOnly then return if takesNewline then [Symbol.newline] else []
  else
    let sample ← sample? flags s
    return sample.toList ++
      (if flags.multiline && takesNewline && sample != some Symbol.newline then [Symbol.newline]
        else [])

/-! ## The search -/

/-- The nodes that silent transitions lead to, the last transition first. -/
def silentNodes (a : Automaton) (node : SearchNode) : Except Trap (List SearchNode) := do
  let row ← row a node.config.state
  return (row.flatMap (node.config.silentMoves a.flags.multiline)).reverse.map (⟨·, node.consumed⟩)

/-- Close a layer under silent transitions. -/
def closeLayer (a : Automaton) (marks : Marks) (passed : List SearchNode) :
    List SearchNode → Except Trap Layer
  | [] => .ok ⟨marks, passed.reverse, none⟩
  | node :: stack =>
      if fresh : marks.isFresh node.config.index then
        if a.acceptsAt node.config then
          .ok ⟨marks.mark node.config.index, (node :: passed).reverse, some node⟩
        else
          have := marks.unmarked_mark fresh
          match silentNodes a node with
          | .error t => .error t
          | .ok silent =>
              closeLayer a (marks.mark node.config.index) (node :: passed) (silent ++ stack)
      else if node.config.state < a.size then closeLayer a marks passed stack
      else .error (.noState node.config.state)
termination_by stack => (marks.unmarked, stack.length)

/-- Consume a symbol and go on in a state. -/
def consume (a : Automaton) (node : SearchNode) (t c : Nat) : Except Trap SearchNode :=
  if c ≤ Symbol.last then
    .ok ⟨⟨t, a.flags.multiline && c == Symbol.newline, .free⟩, c :: node.consumed⟩
  else .error (.noSymbol c)

/-- The nodes of the next layer that one transition leads to. -/
def nodesThrough (a : Automaton) (node : SearchNode) :
    Transition → Except Trap (List SearchNode)
  | .symbol s t => do
      let samples ← samples a.flags (node.config.phase = .newline) s
      samples.mapM (consume a node t)
  | .epsilon _ | .assert _ _ => return []

/-- The nodes of the next layer that one node leads to. -/
def symbolNodes (a : Automaton) (node : SearchNode) : Except Trap (List SearchNode) :=
  if node.config.phase = .ended then return []
  else do
    let row ← row a node.config.state
    collect (nodesThrough a node) row

theorem eq_of_silentNodes {silent : List SearchNode} (h : silentNodes a node = .ok silent) :
    silent = a.silentNodes node := by
  rw [silentNodes, row] at h
  rw [Automaton.silentNodes, Automaton.out]
  cases hrow : a.states[node.config.state]? with
  | none =>
      rw [hrow] at h
      cases h
  | some row =>
      rw [hrow] at h
      exact (Except.ok.inj h).symm

theorem eq_of_closeLayer {closed : Layer} (h : closeLayer a marks passed stack = .ok closed) :
    closed = a.closeLayer marks passed stack := by
  fun_induction closeLayer a marks passed stack with
  | case1 =>
      rw [Automaton.closeLayer]
      exact (Except.ok.inj h).symm
  | case2 marks passed node stack fresh haccept =>
      rw [Automaton.closeLayer, dif_pos fresh, if_pos haccept]
      exact (Except.ok.inj h).symm
  | case3 => cases h
  | case4 marks passed node stack fresh haccept _ silent hsilent ih =>
      rw [Automaton.closeLayer, dif_pos fresh, if_neg haccept, ← eq_of_silentNodes hsilent]
      exact ih h
  | case5 marks passed node stack fresh _ ih =>
      rw [Automaton.closeLayer, dif_neg fresh]
      exact ih h
  | case6 => cases h

/-- Search layer by layer. -/
def searchLayers (a : Automaton) (marks : Marks) (layer : List SearchNode) :
    Except Trap (Option SearchNode) :=
  match _closed : closeLayer a marks [] layer.reverse with
  | .error t => .error t
  | .ok closed =>
      if closed.accepting.isSome then .ok closed.accepting
      else if _empty : closed.nodes = [] then .ok none
      else
        match collect (symbolNodes a) closed.nodes with
        | .error t => .error t
        | .ok next => searchLayers a closed.marks next
termination_by marks.unmarked
decreasing_by
  have := a.unmarked_closeLayer marks [] layer.reverse
  have := List.length_pos_iff.mpr _empty
  rw [eq_of_closeLayer _closed] at *
  simp only [List.length_nil] at *
  omega

/-- A shortest accepted text, if one was found. -/
def witness? (a : Automaton) : Except Trap (Option Text) := do
  let found ← searchLayers a (.clear (6 * a.size)) [⟨⟨a.start, true, .free⟩, []⟩]
  return found.map fun node => .ofSymbols node.consumed.reverse

/-! ## No traps -/

theorem acceptsSymbol_eq {c : Nat} (hc : c ≤ Symbol.last) :
    acceptsSymbol flags s c = .ok (s.acceptsSymbol flags c) := by
  rw [acceptsSymbol, variants_eq hc]
  rfl

/-- Symbols are tried in order. -/
theorem findM?_acceptsSymbol {cs : List Nat} (hcs : ∀ c ∈ cs, c ≤ Symbol.last) :
    cs.findM? (acceptsSymbol flags s) = .ok (cs.find? (s.acceptsSymbol flags)) := by
  induction cs with
  | nil => rfl
  | cons c rest ih =>
      obtain ⟨hc, hrest⟩ := List.forall_mem_cons.mp hcs
      rw [List.findM?, acceptsSymbol_eq hc, ok_bind, List.find?_cons]
      cases s.acceptsSymbol flags c with
      | true => rfl
      | false => exact ih hrest

/-- The probes of a class in order are symbols. -/
theorem le_last_of_mem_probes {k : SymbolClass} {c : Nat} (hs : (SymbolSet.among k).Separated)
    (hwithin : (SymbolSet.among k).Within) (h : c ∈ SymbolClass.probes k.ranges) :
    c ≤ Symbol.last := by
  have hk : SymbolRange.Separated k.ranges.toList := hs
  have hlast : ∀ r ∈ k.ranges.toList, r.last ≤ Symbol.last := hwithin
  refine SymbolClass.le_last_of_mem_probesFrom ?_ h
  intro r hr
  rcases List.mem_append.mp hr with hr | hr
  · exact Nat.le_succ_of_le (Nat.le_trans (hk.proper r hr) (hlast r hr))
  · rw [List.mem_singleton.mp hr]
    exact Nat.le_refl _

theorem sample?_eq (hs : s.Separated) (hwithin : s.Within) :
    sample? flags s = .ok (s.sample? flags) := by
  cases s with
  | single c => rfl
  | any => rfl
  | among k =>
      rw [sample?, findM?_acceptsSymbol fun c hc => SymbolSet.le_last_of_mem_preferredSamples hc,
        ok_bind, findM?_acceptsSymbol fun c hc => le_last_of_mem_probes hs hwithin hc,
        SymbolSet.sample?]
      have htakes : (fun c => k.accepts (flags.variants c)) =
          (SymbolSet.among k).acceptsSymbol flags := rfl
      rw [htakes]
      cases SymbolClass.preferredSamples.find? ((SymbolSet.among k).acceptsSymbol flags) with
      | some c => rfl
      | none => cases k.negated <;> rfl

theorem samples_eq (newlineOnly : Bool) (hs : s.Separated) (hwithin : s.Within) :
    samples flags newlineOnly s = .ok (s.samples flags newlineOnly) := by
  rw [samples, acceptsSymbol_eq (by decide), ok_bind, sample?_eq hs hwithin, ok_bind,
    SymbolSet.samples]
  split <;> rfl

theorem silentNodes_eq (hnode : node.config.state < a.size) :
    silentNodes a node = .ok (a.silentNodes node) := by
  rw [silentNodes, row_eq hnode]
  rfl

theorem symbolNodes_eq (hs : a.Sorted) (hnode : node.config.state < a.size) :
    symbolNodes a node = .ok (a.symbolNodes node) := by
  rw [symbolNodes, Automaton.symbolNodes]
  split
  · rfl
  · rw [row_eq hnode, ok_bind]
    refine collect_eq fun tr htr => ?_
    cases tr with
    | epsilon t => rfl
    | assert anchor t => rfl
    | symbol s t =>
        obtain ⟨hseparated, hwithin⟩ : s.Separated ∧ s.Within := hs _ _ htr
        rw [nodesThrough, samples_eq _ hseparated hwithin, ok_bind]
        refine mapM_eq fun c hc => if_pos ?_
        exact (SymbolSet.accepts_of_mem_samples hseparated hwithin hc).2.1

-- What a set holds behind the last symbol is a trap where it is consumed.
example : symbolNodes ⟨#[[.symbol (.single 0x110000) 0]], 0, 0, {}⟩ ⟨⟨0, true, .free⟩, []⟩ =
    .error (.noSymbol 0x110000) := by decide +kernel

/-- Closing a layer does not trap, and keeps the marks for all configurations. -/
theorem closeLayer_eq (ha : a.WellFormed) (passed : List SearchNode)
    (hsize : marks.size = 6 * a.size) (hstack : ∀ node ∈ stack, node.config.state < a.size) :
    closeLayer a marks passed stack = .ok (a.closeLayer marks passed stack) ∧
      (a.closeLayer marks passed stack).marks.size = 6 * a.size := by
  fun_induction Automaton.closeLayer a marks passed stack with
  | case1 marks passed =>
      rw [closeLayer]
      exact ⟨rfl, hsize⟩
  | case2 marks passed node stack fresh haccept =>
      rw [closeLayer, dif_pos fresh, if_pos haccept]
      exact ⟨rfl, Marks.size_mark.trans hsize⟩
  | case3 marks passed node stack fresh haccept _ ih =>
      obtain ⟨hnode, hrest⟩ := List.forall_mem_cons.mp hstack
      rw [closeLayer, dif_pos fresh, if_neg haccept, silentNodes_eq hnode]
      refine ih (Marks.size_mark.trans hsize) (List.forall_mem_append.mpr ⟨?_, hrest⟩)
      intro m hm
      exact (Automaton.mem_silentNodes.mp hm).1.lt ha
  | case4 marks passed node stack fresh ih =>
      obtain ⟨hnode, hrest⟩ := List.forall_mem_cons.mp hstack
      rw [closeLayer, dif_neg fresh, if_pos hnode]
      exact ih hsize hrest

/-- One round of a search from nodes in states of the automaton. -/
theorem searchLayers_round (ha : a.WellFormed) (hs : a.Sorted) (hsize : marks.size = 6 * a.size)
    (hlayer : ∀ node ∈ layer, node.config.state < a.size) :
    let closed := a.closeLayer marks [] layer.reverse
    closed.marks.size = 6 * a.size ∧
      searchLayers a marks layer =
        if closed.accepting.isSome then .ok closed.accepting
        else if closed.nodes = [] then .ok none
        else searchLayers a closed.marks (closed.nodes.flatMap a.symbolNodes) := by
  intro closed
  have hstack : ∀ node ∈ layer.reverse, node.config.state < a.size := fun node hnode =>
    hlayer node (List.mem_reverse.mp hnode)
  have hnodes : ∀ node ∈ closed.nodes, node.config.state < a.size :=
    (Automaton.closeLayer_forall marks (fun _ _ _ hm => (Automaton.mem_silentNodes.mp hm).1.lt ha)
      (List.forall_mem_nil _) hstack).1
  obtain ⟨hclosed, hmarks⟩ := closeLayer_eq ha [] hsize hstack
  refine ⟨hmarks, ?_⟩
  rw [searchLayers]
  split
  · rename_i h
    cases h.symm.trans hclosed
  · rename_i h
    cases h.symm.trans hclosed
    rw [collect_eq fun node hnode => symbolNodes_eq hs (hnodes node hnode)]
    rfl

theorem searchLayers_eq (ha : a.WellFormed) (hs : a.Sorted) (hsize : marks.size = 6 * a.size)
    (hlayer : ∀ node ∈ layer, node.config.state < a.size) :
    searchLayers a marks layer = .ok (a.searchLayers marks layer).found := by
  fun_induction Automaton.searchLayers a marks layer with
  | case1 marks layer closed expanded haccepting =>
      rw [(searchLayers_round ha hs hsize hlayer).2, if_pos haccepting]
  | case2 marks layer closed haccepting hempty =>
      rw [(searchLayers_round ha hs hsize hlayer).2, if_neg haccepting, if_pos hempty]
  | case3 marks layer closed expanded haccepting hempty fewer later ih =>
      obtain ⟨hmarks, hround⟩ := searchLayers_round ha hs hsize hlayer
      rw [hround, if_neg haccepting, if_neg hempty]
      refine ih hmarks ?_
      intro m hm
      obtain ⟨node, _, hm⟩ := List.mem_flatMap.mp hm
      obtain ⟨_, hsymbol, _⟩ := Automaton.mem_symbolNodes.mp hm
      exact hsymbol.lt ha

/-- The search for a witness does not trap. -/
theorem witness?_eq (ha : a.WellFormed) (hs : a.Sorted) : witness? a = .ok a.witness? := by
  have hlayer : ∀ node ∈ [SearchNode.mk ⟨a.start, true, .free⟩ []], node.config.state < a.size :=
    List.forall_mem_singleton.mpr ha.start_lt
  rw [witness?, searchLayers_eq ha hs Marks.size_clear hlayer, ok_bind, Automaton.witness?,
    Automaton.witnessSymbols?, Option.map_map]
  rfl

end Checked

end RegexEngine
