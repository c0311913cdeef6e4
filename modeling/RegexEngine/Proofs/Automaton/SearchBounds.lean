/-
# `Automaton.exploration` ends, and expands a configuration once

The search for a witness is two loops, one inside of the other.  The inner one takes nodes
off a stack and puts others on it; where the stack is empty, the outer one makes the next
layer out of the nodes that the inner one has passed, and stops if there is nothing in it.
`Turn` is one turn of either loop, and `Stops` says where they stop.

Every turn lowers a measure, whatever automaton there is (`wellFounded_turn`).  A node that
is expanded marks its configuration; one that is not leaves the stack for nothing; and a new
layer takes the passed nodes away, of which there must have been one.  A layer can be full of
configurations that are marked already.  It is taken off the stack, nothing is passed, and
the next layer is empty.

So the loops come to a stop, in one way only (`stops_unique`), and they stop with the answer
of `exploration`, which is defined by recursion (`stops_searchLayers`).  Each layer but the
last one marks a configuration that was not marked before, so there are no more layers, and
no more symbols in what is found, than there are configurations (`length_consumed_lt`).
-/
import Mathlib.Data.Fin.Tuple.Basic
import RegexEngine.Proofs.Automaton.Exploration

namespace RegexEngine

/-- The variables of a search: the marks, the nodes of the layer that have been passed, the
last one first, and those that wait; with what has been expanded so far. -/
structure SearchState where
  marks : Marks
  passed : List SearchNode
  stack : List SearchNode
  expanded : List Config
deriving DecidableEq, Inhabited, Repr

/-- What a turn lowers: the configurations that can still be marked; if they stay, the passed
nodes; and if these stay, the nodes that wait. -/
def SearchState.rank (s : SearchState) : Nat × Nat × Nat :=
  (s.marks.unmarked, s.passed.length, s.stack.length)

namespace Automaton

variable {a : Automaton} {marks : Marks} {passed stack layer : List SearchNode}
  {node : SearchNode} {n : Nat}

/-! ## Turns -/

/-- One turn of the loops. -/
inductive Turn (a : Automaton) : SearchState → SearchState → Prop
  /-- A node is dropped whose configuration has been marked. -/
  | drop {marks : Marks} {passed stack : List SearchNode} {expanded : List Config}
      {node : SearchNode} : marks.isFresh node.config.index = false →
      Turn a ⟨marks, passed, node :: stack, expanded⟩ ⟨marks, passed, stack, expanded⟩
  /-- A node is expanded: its configuration is marked, and what silent transitions lead to
  is put on the stack. -/
  | expand {marks : Marks} {passed stack : List SearchNode} {expanded : List Config}
      {node : SearchNode} : marks.isFresh node.config.index = true →
      a.acceptsAt node.config = false →
      Turn a ⟨marks, passed, node :: stack, expanded⟩
        ⟨marks.mark node.config.index, node :: passed, a.silentNodes node ++ stack,
          expanded ++ [node.config]⟩
  /-- The passed nodes lead to the next layer. -/
  | layer {marks : Marks} {passed : List SearchNode} {expanded : List Config} :
      passed.reverse.flatMap a.symbolNodes ≠ [] →
      Turn a ⟨marks, passed, [], expanded⟩
        ⟨marks, [], (passed.reverse.flatMap a.symbolNodes).reverse, expanded⟩

/-- The loops stop, and their course was the given one. -/
inductive Stops (a : Automaton) : SearchState → Exploration → Prop
  /-- The node is the last one to be expanded, as it accepts. -/
  | found {marks : Marks} {passed stack : List SearchNode} {expanded : List Config}
      {node : SearchNode} : marks.isFresh node.config.index = true →
      a.acceptsAt node.config = true →
      Stops a ⟨marks, passed, node :: stack, expanded⟩ ⟨some node, expanded ++ [node.config]⟩
  /-- The next layer is empty. -/
  | exhausted {marks : Marks} {passed : List SearchNode} {expanded : List Config} :
      passed.reverse.flatMap a.symbolNodes = [] →
      Stops a ⟨marks, passed, [], expanded⟩ ⟨none, expanded⟩

/-- A search begins with the start on its stack. -/
def searchStart (a : Automaton) : SearchState :=
  ⟨.clear (6 * a.size), [], [⟨a.startConfig, []⟩], []⟩

theorem Turn.rank_lt {s s' : SearchState} (h : a.Turn s s') :
    Prod.Lex (· < ·) (Prod.Lex (· < ·) (· < ·)) s'.rank s.rank := by
  cases h with
  | drop _ => exact .right _ (.right _ (Nat.lt_succ_self _))
  | expand hfresh _ =>
      have hunmarked := Marks.unmarked_mark hfresh
      exact .left _ _ (Nat.lt_of_succ_le (Nat.le_of_eq hunmarked))
  | layer hnext =>
      refine .right _ (.left _ _ (List.length_pos_iff.mpr ?_))
      rintro rfl
      exact hnext rfl

/-- No search goes on for ever, wherever it begins. -/
theorem wellFounded_turn (a : Automaton) : WellFounded fun s' s => a.Turn s s' :=
  Subrelation.wf (fun h => h.rank_lt)
    (InvImage.wf SearchState.rank
      (Prod.lex Nat.lt_wfRel (Prod.lex Nat.lt_wfRel Nat.lt_wfRel)).wf)

/-- Until the loops stop, there is another turn. -/
theorem turn_or_stops (a : Automaton) (s : SearchState) :
    (∃ s', a.Turn s s') ∨ ∃ course, a.Stops s course := by
  obtain ⟨marks, passed, stack, expanded⟩ := s
  cases stack with
  | nil =>
      by_cases hnext : passed.reverse.flatMap a.symbolNodes = []
      · exact Or.inr ⟨_, .exhausted hnext⟩
      · exact Or.inl ⟨_, .layer hnext⟩
  | cons node stack =>
      cases hfresh : marks.isFresh node.config.index with
      | false => exact Or.inl ⟨_, .drop hfresh⟩
      | true =>
          cases haccept : a.acceptsAt node.config with
          | false => exact Or.inl ⟨_, .expand hfresh haccept⟩
          | true => exact Or.inr ⟨_, .found hfresh haccept⟩

theorem rightUnique_turn (a : Automaton) : Relator.RightUnique a.Turn := by
  intro s t t' h h'
  cases h with
  | drop hmarked =>
      cases h' with
      | drop _ => rfl
      | expand hfresh _ => exact absurd (hmarked.symm.trans hfresh) Bool.false_ne_true
  | expand hfresh _ =>
      cases h' with
      | drop hmarked => exact absurd (hmarked.symm.trans hfresh) Bool.false_ne_true
      | expand _ _ => rfl
  | layer _ =>
      cases h' with
      | layer _ => rfl

theorem Stops.not_turn {s s' : SearchState} {course : Exploration} (h : a.Stops s course) :
    ¬ a.Turn s s' := by
  intro hturn
  cases h with
  | found hfresh haccept =>
      cases hturn with
      | drop hmarked => exact absurd (hmarked.symm.trans hfresh) Bool.false_ne_true
      | expand _ hrefused => exact absurd (hrefused.symm.trans haccept) Bool.false_ne_true
  | exhausted hempty =>
      cases hturn with
      | layer hnext => exact hnext hempty

theorem Stops.unique {s : SearchState} {course course' : Exploration} (h : a.Stops s course)
    (h' : a.Stops s course') : course = course' := by
  cases h with
  | found _ _ => cases h' with | found _ _ => rfl
  | exhausted _ => cases h' with | exhausted _ => rfl

/-- The loops stop in one way only. -/
theorem stops_unique {s t t' : SearchState} {course course' : Exploration}
    (h : Relation.ReflTransGen a.Turn s t) (hstops : a.Stops t course)
    (h' : Relation.ReflTransGen a.Turn s t') (hstops' : a.Stops t' course') :
    course = course' := by
  have hlast : ∀ {u v : SearchState} {e : Exploration}, a.Stops u e →
      Relation.ReflTransGen a.Turn u v → u = v := by
    intro u v e hu huv
    rcases huv.cases_head with rfl | ⟨_, hturn, _⟩
    · rfl
    · exact absurd hturn hu.not_turn
  rcases Relation.ReflTransGen.total_of_right_unique a.rightUnique_turn h h' with htt | htt
  · obtain rfl := hlast hstops htt
    exact hstops.unique hstops'
  · obtain rfl := hlast hstops' htt
    exact hstops.unique hstops'

/-- The inner loop closes a layer; `front` are the configurations that earlier layers have
expanded. -/
theorem turns_closeLayer (a : Automaton) (front : List Config) (marks : Marks)
    (passed stack : List SearchNode) :
    let begun : SearchState := ⟨marks, passed, stack, front ++ passed.reverse.map (·.config)⟩
    let closed := a.closeLayer marks passed stack
    (closed.accepting = none → Relation.ReflTransGen a.Turn begun
      ⟨closed.marks, closed.nodes.reverse, [], front ++ closed.nodes.map (·.config)⟩) ∧
    (closed.accepting.isSome → ∃ last, Relation.ReflTransGen a.Turn begun last ∧
      a.Stops last ⟨closed.accepting, front ++ closed.nodes.map (·.config)⟩) := by
  have hsnoc : ∀ (node : SearchNode) (passed : List SearchNode),
      front ++ (node :: passed).reverse.map (·.config) =
        front ++ passed.reverse.map (·.config) ++ [node.config] := by
    intro node passed
    rw [List.reverse_cons, List.map_append, List.append_assoc]
    rfl
  fun_induction closeLayer a marks passed stack with
  | case1 marks passed =>
      refine ⟨fun _ => ?_, fun hsome => absurd hsome Bool.false_ne_true⟩
      rw [List.reverse_reverse]
  | case2 marks passed node stack fresh haccept =>
      refine ⟨fun hnone => absurd hnone (Option.some_ne_none node), fun _ => ⟨_, .refl, ?_⟩⟩
      rw [hsnoc]
      exact .found fresh haccept
  | case3 marks passed node stack fresh haccept _ ih =>
      have hturn : a.Turn
          ⟨marks, passed, node :: stack, front ++ passed.reverse.map (·.config)⟩
          ⟨marks.mark node.config.index, node :: passed, a.silentNodes node ++ stack,
            front ++ (node :: passed).reverse.map (·.config)⟩ := by
        rw [hsnoc]
        exact .expand fresh (Bool.eq_false_iff.mpr haccept)
      refine ⟨fun hnone => .head hturn (ih.1 hnone), fun hsome => ?_⟩
      obtain ⟨last, hturns, hstops⟩ := ih.2 hsome
      exact ⟨last, .head hturn hturns, hstops⟩
  | case4 marks passed node stack fresh ih =>
      have hturn : a.Turn
          ⟨marks, passed, node :: stack, front ++ passed.reverse.map (·.config)⟩
          ⟨marks, passed, stack, front ++ passed.reverse.map (·.config)⟩ :=
        .drop (Bool.eq_false_iff.mpr fresh)
      refine ⟨fun hnone => .head hturn (ih.1 hnone), fun hsome => ?_⟩
      obtain ⟨last, hturns, hstops⟩ := ih.2 hsome
      exact ⟨last, .head hturn hturns, hstops⟩

/-- The inner loop closes a layer of which no node has been passed. -/
theorem turns_layer (a : Automaton) (front : List Config) (marks : Marks)
    (layer : List SearchNode) :
    let closed := a.closeLayer marks [] layer.reverse
    (closed.accepting = none → Relation.ReflTransGen a.Turn ⟨marks, [], layer.reverse, front⟩
      ⟨closed.marks, closed.nodes.reverse, [], front ++ closed.nodes.map (·.config)⟩) ∧
    (closed.accepting.isSome → ∃ last,
      Relation.ReflTransGen a.Turn ⟨marks, [], layer.reverse, front⟩ last ∧
        a.Stops last ⟨closed.accepting, front ++ closed.nodes.map (·.config)⟩) := by
  have h := a.turns_closeLayer front marks [] layer.reverse
  rwa [List.reverse_nil, List.map_nil, List.append_nil] at h

/-- In a layer without nodes nothing is found, and nothing expanded. -/
theorem searchLayers_nil (a : Automaton) (marks : Marks) :
    a.searchLayers marks [] = ⟨none, []⟩ := by
  rw [searchLayers]
  simp [closeLayer]

/-- The loops stop with what the search by recursion finds and expands. -/
theorem stops_searchLayers (a : Automaton) (marks : Marks) (layer : List SearchNode) :
    ∀ front, ∃ last, Relation.ReflTransGen a.Turn ⟨marks, [], layer.reverse, front⟩ last ∧
      a.Stops last ⟨(a.searchLayers marks layer).found,
        front ++ (a.searchLayers marks layer).expanded⟩ := by
  fun_induction searchLayers a marks layer with
  | case1 marks layer closed expanded haccepting =>
      exact fun front => (a.turns_layer front marks layer).2 haccepting
  | case2 marks layer closed haccepting hempty =>
      intro front
      have hturns := (a.turns_layer front marks layer).1
        (Option.not_isSome_iff_eq_none.mp haccepting)
      have hnodes : (a.closeLayer marks [] layer.reverse).nodes = [] := hempty
      rw [hnodes] at hturns
      exact ⟨_, hturns, .exhausted rfl⟩
  | case3 marks layer closed expanded haccepting hempty fewer later ih =>
      intro front
      have hturns : Relation.ReflTransGen a.Turn ⟨marks, [], layer.reverse, front⟩
          ⟨closed.marks, closed.nodes.reverse, [], front ++ expanded⟩ :=
        (a.turns_layer front marks layer).1 (Option.not_isSome_iff_eq_none.mp haccepting)
      have hnext : closed.nodes.reverse.reverse.flatMap a.symbolNodes =
          closed.nodes.flatMap a.symbolNodes := by rw [List.reverse_reverse]
      by_cases hlast : closed.nodes.flatMap a.symbolNodes = []
      · -- The next layer is empty: the recursion looks at it once more, the loops do not.
        have hlater : later = ⟨none, []⟩ := by
          show a.searchLayers closed.marks (closed.nodes.flatMap a.symbolNodes) = _
          rw [hlast]
          exact a.searchLayers_nil closed.marks
        rw [hlater, List.append_nil]
        exact ⟨_, hturns, .exhausted (hnext.trans hlast)⟩
      · have hlayer : a.Turn ⟨closed.marks, closed.nodes.reverse, [], front ++ expanded⟩
            ⟨closed.marks, [], (closed.nodes.flatMap a.symbolNodes).reverse,
              front ++ expanded⟩ := by
          rw [← hnext]
          exact .layer (hnext.trans_ne hlast)
        obtain ⟨last, hrest, hstops⟩ := ih (front ++ expanded)
        rw [List.append_assoc] at hstops
        exact ⟨last, hturns.trans (.head hlayer hrest), hstops⟩

/-! ## No configuration twice -/

/-- Nodes whose configurations are marked one after the other, given the marks before and
after. -/
structure Marking (marks : Marks) (new : List SearchNode) (closed : Marks) : Prop where
  size_eq : closed.size = marks.size
  nodup : (new.map (·.config)).Nodup
  fresh : ∀ node ∈ new, node.config.index < marks.size ∧ ¬ marks.Seen node.config
  seen_iff : ∀ c, closed.Seen c ↔ marks.Seen c ∨ ∃ node ∈ new, node.config = c

theorem Marking.nil (marks : Marks) : Marking marks [] marks :=
  ⟨rfl, List.nodup_nil, List.forall_mem_nil _, by simp⟩

/-- A fresh node in front of what is marked behind it. -/
theorem Marking.cons {new : List SearchNode} {closed : Marks}
    (hfresh : marks.isFresh node.config.index = true)
    (h : Marking (marks.mark node.config.index) new closed) :
    Marking marks (node :: new) closed := by
  obtain ⟨hindex, hno⟩ := Marks.isFresh_iff.mp hfresh
  refine ⟨h.size_eq.trans Marks.size_mark, ?_, ?_, seen_iff_cons hindex h.seen_iff⟩
  · refine List.nodup_cons.mpr ⟨?_, h.nodup⟩
    intro hmem
    obtain ⟨m, hm, hconfig⟩ := List.mem_map.mp hmem
    exact (h.fresh m hm).2 ((Marks.seen_mark hindex).mpr (Or.inl hconfig))
  · refine List.forall_mem_cons.mpr ⟨⟨hindex, hno⟩, fun m hm => ?_⟩
    obtain ⟨hm, hfresh'⟩ := h.fresh m hm
    rw [Marks.size_mark] at hm
    exact ⟨hm, fun hold => hfresh' ((Marks.seen_mark hindex).mpr (Or.inr hold))⟩

/-- Closing a layer marks its new nodes. -/
theorem marking_closeLayer (a : Automaton) (marks : Marks) (passed stack : List SearchNode) :
    ∃ new, (a.closeLayer marks passed stack).nodes = passed.reverse ++ new ∧
      Marking marks new (a.closeLayer marks passed stack).marks := by
  fun_induction closeLayer a marks passed stack with
  | case1 marks passed => exact ⟨[], (List.append_nil _).symm, .nil marks⟩
  | case2 marks passed node stack fresh haccept =>
      exact ⟨[node], List.reverse_cons, .cons fresh (.nil _)⟩
  | case3 marks passed node stack fresh haccept _ ih =>
      obtain ⟨new, hnodes, hmarking⟩ := ih
      refine ⟨node :: new, ?_, hmarking.cons fresh⟩
      rw [hnodes, List.reverse_cons, List.append_assoc]
      rfl
  | case4 marks passed node stack fresh ih => exact ih

/-- What a search expands is expanded once, and was not marked before. -/
theorem nodup_expanded_searchLayers (a : Automaton) (marks : Marks) (layer : List SearchNode) :
    (a.searchLayers marks layer).expanded.Nodup ∧
      ∀ c ∈ (a.searchLayers marks layer).expanded, c.index < marks.size ∧ ¬ marks.Seen c := by
  fun_induction searchLayers a marks layer with
  | case1 marks layer closed expanded haccepting =>
      obtain ⟨new, hnodes, hmarking⟩ := a.marking_closeLayer marks [] layer.reverse
      obtain rfl : closed.nodes = new := hnodes
      exact ⟨hmarking.nodup, List.forall_mem_map.mpr hmarking.fresh⟩
  | case2 marks layer closed haccepting hempty =>
      exact ⟨List.nodup_nil, List.forall_mem_nil _⟩
  | case3 marks layer closed expanded haccepting hempty fewer later ih =>
      obtain ⟨new, hnodes, hmarking⟩ := a.marking_closeLayer marks [] layer.reverse
      obtain rfl : closed.nodes = new := hnodes
      obtain ⟨hnodup, hfresh⟩ := ih
      have hseen : ∀ c ∈ expanded, closed.marks.Seen c := by
        intro c hc
        exact (hmarking.seen_iff c).mpr (Or.inr (List.mem_map.mp hc))
      refine ⟨List.nodup_append.mpr ⟨hmarking.nodup, hnodup, ?_⟩, ?_⟩
      · rintro c hc _ hc' rfl
        exact (hfresh c hc').2 (hseen c hc)
      · refine List.forall_mem_append.mpr ⟨List.forall_mem_map.mpr hmarking.fresh, fun c hc => ?_⟩
        obtain ⟨hindex, hno⟩ := hfresh c hc
        refine ⟨hmarking.size_eq ▸ hindex, fun hold => hno ?_⟩
        exact (hmarking.seen_iff c).mpr (Or.inl hold)

/-! ## The length of what is found -/

/-- A search expands no more configurations than are left to be marked. -/
theorem length_expanded_le (a : Automaton) (marks : Marks) (layer : List SearchNode) :
    (a.searchLayers marks layer).expanded.length ≤ marks.unmarked := by
  fun_induction searchLayers a marks layer with
  | case1 marks layer closed expanded haccepting =>
      have hmarked := a.unmarked_closeLayer marks [] layer.reverse
      rw [List.length_map]
      exact Nat.le_of_add_left_le (Nat.le_of_eq hmarked)
  | case2 marks layer closed haccepting hempty => exact Nat.zero_le _
  | case3 marks layer closed expanded haccepting hempty fewer later ih =>
      have hmarked : closed.marks.unmarked + closed.nodes.length = marks.unmarked :=
        a.unmarked_closeLayer marks [] layer.reverse
      have hlater : later.expanded.length ≤ closed.marks.unmarked := ih
      rw [List.length_append, List.length_map]
      omega

/-- A layer that accepts has a node. -/
theorem nodes_ne_nil_of_accepting (a : Automaton) (marks : Marks) (passed stack : List SearchNode)
    (h : (a.closeLayer marks passed stack).accepting.isSome) :
    (a.closeLayer marks passed stack).nodes ≠ [] := by
  fun_induction closeLayer a marks passed stack with
  | case1 marks passed => cases h
  | case2 marks passed node stack fresh haccept => simp
  | case3 marks passed node stack fresh haccept _ ih => exact ih h
  | case4 marks passed node stack fresh ih => exact ih h

/-- Every layer expands some configuration, so there are fewer layers in front of the last
one than configurations. -/
theorem length_consumed_lt (a : Automaton) (marks : Marks) (layer : List SearchNode) :
    ∀ n, (∀ node ∈ layer, node.consumed.length = n) →
      ∀ node, (a.searchLayers marks layer).found = some node →
        node.consumed.length < n + (a.searchLayers marks layer).expanded.length := by
  fun_induction searchLayers a marks layer with
  | case1 marks layer closed expanded haccepting =>
      intro n hlayer node hfound
      have hlength := (closeLayer_length marks hlayer).2 node hfound
      have hnodes : closed.nodes ≠ [] :=
        a.nodes_ne_nil_of_accepting marks [] layer.reverse haccepting
      have hpos := List.length_pos_iff.mpr hnodes
      rw [hlength, List.length_map]
      omega
  | case2 marks layer closed haccepting hempty =>
      intro n hlayer node hfound
      cases hfound
  | case3 marks layer closed expanded haccepting hempty fewer later ih =>
      intro n hlayer node hfound
      have hnext := length_of_mem_symbolNodes (a := a) (closeLayer_length (a := a) marks hlayer).1
      have hlt : node.consumed.length < n + 1 + later.expanded.length :=
        ih (n + 1) hnext node hfound
      have hpos := List.length_pos_iff.mpr hempty
      rw [List.length_append, List.length_map]
      omega

/-! ## The whole search -/

/-- The symbol is one that a search tries for some transition of the automaton. -/
def Sampled (a : Automaton) (c : Nat) : Prop :=
  ∃ q s t newlineOnly, .symbol s t ∈ a.out q ∧ c ∈ s.samples a.flags newlineOnly

/-- What is found has consumed samples. -/
theorem sampled_of_found (h : a.exploration.found = some node) :
    ∀ c ∈ node.consumed, a.Sampled c := by
  refine (searchLayers_forall (P := fun node => ∀ c ∈ node.consumed, a.Sampled c) ?_ ?_ ?_ h).1
  · intro node m hnode hm
    rw [(mem_silentNodes.mp hm).2]
    exact hnode
  · intro node m hnode hm
    obtain ⟨sample, ⟨_, s, t, htr, hsample, _⟩, hconsumed⟩ := mem_symbolNodes.mp hm
    rw [hconsumed]
    exact List.forall_mem_cons.mpr ⟨⟨_, s, t, _, htr, hsample⟩, hnode⟩
  · exact List.forall_mem_cons.mpr ⟨List.forall_mem_nil _, List.forall_mem_nil _⟩

/-- The loops of a search do not go on for ever, and when no turn is left they have stopped
with what the search finds and expands.  No configuration is expanded twice.  A witness is
written by samples, which are fewer than there are configurations. -/
theorem exploration_ends (a : Automaton) :
    (WellFounded fun s' s => a.Turn s s') ∧
    (∃ last, Relation.ReflTransGen a.Turn a.searchStart last ∧ a.Stops last a.exploration) ∧
    (∀ last, Relation.ReflTransGen a.Turn a.searchStart last →
      (∃ next, a.Turn last next) ∨ a.Stops last a.exploration) ∧
    a.exploration.expanded.Nodup ∧
    (∀ c ∈ a.exploration.expanded, c.state < a.size) ∧
    ∀ w, a.witness? = some w →
      ∃ cs, .ofSymbols cs = w ∧ cs.length < 6 * a.size ∧ ∀ c ∈ cs, a.Sampled c := by
  obtain ⟨hnodup, hfresh⟩ :=
    a.nodup_expanded_searchLayers (.clear (6 * a.size)) [⟨a.startConfig, []⟩]
  obtain ⟨last, hturns, hstops⟩ :=
    a.stops_searchLayers (.clear (6 * a.size)) [⟨a.startConfig, []⟩] []
  refine ⟨a.wellFounded_turn, ⟨last, hturns, hstops⟩, fun last' hturns' => ?_, hnodup,
    fun c hc => ?_, fun w hw => ?_⟩
  · refine (a.turn_or_stops last').imp_right ?_
    rintro ⟨course, hstops'⟩
    have hcourse : a.exploration = course := stops_unique hturns hstops hturns' hstops'
    exact hcourse ▸ hstops'
  · have hindex := (hfresh c hc).1
    rw [Marks.size_clear] at hindex
    exact Config.state_lt hindex
  · rw [witness?, witnessSymbols?, Option.map_map, Option.map_eq_some_iff] at hw
    obtain ⟨node, hfound, htext⟩ := hw
    have hlt := a.length_consumed_lt (.clear (6 * a.size)) [⟨a.startConfig, []⟩] 0
      (List.forall_mem_cons.mpr ⟨rfl, List.forall_mem_nil _⟩) node hfound
    have hle := a.length_expanded_le (.clear (6 * a.size)) [⟨a.startConfig, []⟩]
    rw [Marks.unmarked_clear] at hle
    refine ⟨node.consumed.reverse, htext, ?_, fun c hc => ?_⟩
    · rw [List.length_reverse]
      omega
    · exact sampled_of_found hfound c (List.mem_reverse.mp hc)

/-- A multiline automaton of `a$\n^b` in which silent cycles lead back to the first letter. -/
def anchoredCycle : Automaton where
  states := #[
    [.symbol (.single 'a'.toNat) 1],
    [.assert .stop 2, .epsilon 1],
    [.symbol .any 3, .symbol (.single Symbol.newline) 3],
    [.assert .start 4],
    [.symbol (.single 'b'.toNat) 5, .epsilon 0, .epsilon 3],
    []]
  start := 0
  accept := 5
  flags := ⟨false, true⟩

theorem anchoredCycle_exploration_ends :
    anchoredCycle.witness? = some (.ofString "a\nb") ∧
      anchoredCycle.exploration.expanded.Nodup ∧
      ∃ cs, .ofSymbols cs = Text.ofString "a\nb" ∧ cs.length < 6 * anchoredCycle.size ∧
        ∀ c ∈ cs, anchoredCycle.Sampled c := by
  have hwitness : anchoredCycle.witness? = some (.ofString "a\nb") := by cbv
  obtain ⟨_, _, _, hnodup, _, hshort⟩ := exploration_ends anchoredCycle
  exact ⟨hwitness, hnodup, hshort _ hwitness⟩

end Automaton

end RegexEngine
