/-
# `Automaton.exploration` finds an accepting configuration in the first layer that has one

The search goes from configuration to configuration, and what it knows of the text is
in the configuration; the symbols consumed on the way play no part.  So reachability is
a relation between configurations (`Reached`), counted in symbols.

What a search has found has every property that its first node has and its steps keep
(`searchLayers_forall`).  That nothing is found before its time, and nothing is lost,
rests on an invariant between two layers (`Frontier`): what is marked is closed under
silent steps and holds nothing that accepts, and a symbol leads out of it only into the
layer that is to come.  Then all that fewer symbols reach is marked.  Closing a layer
restores the invariant (`Frontier.close`, `Frontier.next`), unless it meets a
configuration that accepts; and where a layer adds no mark, nothing is left to be
reached (`Frontier.seen_of_no_nodes`).
-/
import RegexEngine.Automaton.Witness
import RegexEngine.Proofs.Automaton.Reachability

namespace RegexEngine

/-! ## The numbers of configurations -/

namespace Config

theorem index_injective {c d : Config} (h : c.index = d.index) : c = d := by
  obtain ⟨q, b, p⟩ := c
  obtain ⟨r, e, o⟩ := d
  have hb := Bool.toNat_le b
  have he := Bool.toNat_le e
  have hp : p.index ≤ 2 := by cases p <;> decide
  have ho : o.index ≤ 2 := by cases o <;> decide
  have heq : 6 * q + 3 * b.toNat + p.index = 6 * r + 3 * e.toNat + o.index := h
  have hq : q = r := by omega
  have hbe : b.toNat = e.toNat := by omega
  have hpo : p.index = o.index := by omega
  have hline : b = e := by revert hbe; cases b <;> cases e <;> decide
  have hphase : p = o := by revert hpo; cases p <;> cases o <;> decide
  rw [hq, hline, hphase]

theorem index_lt {c : Config} {n : Nat} (h : c.state < n) : c.index < 6 * n := by
  have hb := Bool.toNat_le c.lineStart
  have hp : c.phase.index ≤ 2 := by cases c.phase <;> decide
  unfold index
  omega

theorem state_lt {c : Config} {n : Nat} (h : c.index < 6 * n) : c.state < n := by
  unfold index at h
  omega

end Config

/-- The configuration is marked. -/
def Marks.Seen (m : Marks) (c : Config) : Prop := m.Marked c.index

theorem Marks.not_seen_clear {n : Nat} {c : Config} : ¬ (Marks.clear n).Seen c :=
  not_marked_clear

theorem Marks.seen_mark {m : Marks} {c d : Config} (h : c.index < m.size) :
    (m.mark c.index).Seen d ↔ d = c ∨ m.Seen d := by
  refine (marked_mark h).trans (or_congr_left ⟨Config.index_injective, ?_⟩)
  rintro rfl
  rfl

namespace Automaton

/-! ## Steps between configurations -/

/-- The configuration that a search starts from. -/
def startConfig (a : Automaton) : Config := ⟨a.start, true, .free⟩

/-- A silent transition leads from the one configuration to the other.  Passing a `$`
promises the end of the text, or in multiline mode the end of a line, unless the other
one has been promised. -/
inductive SilentTo (a : Automaton) : Config → Config → Prop
  | epsilon {q t : Nat} {line : Bool} {phase : Phase} : .epsilon t ∈ a.out q →
      SilentTo a ⟨q, line, phase⟩ ⟨t, line, phase⟩
  | start {q t : Nat} {phase : Phase} : .assert .start t ∈ a.out q →
      SilentTo a ⟨q, true, phase⟩ ⟨t, true, phase⟩
  | ended {q t : Nat} {line : Bool} {phase : Phase} : .assert .stop t ∈ a.out q →
      phase ≠ .newline → SilentTo a ⟨q, line, phase⟩ ⟨t, line, .ended⟩
  | newline {q t : Nat} {line : Bool} {phase : Phase} : .assert .stop t ∈ a.out q →
      a.flags.multiline = true → phase ≠ .ended →
      SilentTo a ⟨q, line, phase⟩ ⟨t, line, .newline⟩

/-- A transition leads from the one configuration to the other by a sample. -/
def SymbolTo (a : Automaton) (c : Config) (sample : Nat) (d : Config) : Prop :=
  c.phase ≠ .ended ∧ ∃ s t, .symbol s t ∈ a.out c.state ∧
    sample ∈ s.samples a.flags (c.phase = .newline) ∧
    d = ⟨t, a.flags.multiline && sample == Symbol.newline, .free⟩

/-- Steps from the start lead to the configuration and consume so many symbols. -/
inductive Reached (a : Automaton) : Nat → Config → Prop
  | start : Reached a 0 a.startConfig
  | silent {n : Nat} {c d : Config} : Reached a n c → a.SilentTo c d → Reached a n d
  | symbol {n sample : Nat} {c d : Config} : Reached a n c → a.SymbolTo c sample d →
      Reached a (n + 1) d

variable {a : Automaton} {c d : Config} {node m : SearchNode} {marks : Marks}
  {passed stack layer : List SearchNode} {n k : Nat}

theorem silentTo_iff :
    a.SilentTo c d ↔ ∃ tr ∈ a.out c.state, d ∈ c.silentMoves a.flags.multiline tr := by
  obtain ⟨q, line, phase⟩ := c
  constructor
  · intro h
    cases h with
    | epsilon htr => exact ⟨_, htr, List.mem_singleton_self _⟩
    | start htr => exact ⟨_, htr, List.mem_singleton_self _⟩
    | ended htr hphase => exact ⟨_, htr, by simp [Config.silentMoves, hphase]⟩
    | newline htr hlines hphase => exact ⟨_, htr, by simp [Config.silentMoves, hlines, hphase]⟩
  · rintro ⟨tr, htr, hd⟩
    cases tr with
    | epsilon t =>
        obtain rfl := List.mem_singleton.mp hd
        exact .epsilon htr
    | symbol s t => exact absurd hd List.not_mem_nil
    | assert anchor t =>
        cases anchor with
        | start =>
            obtain ⟨rfl, rfl⟩ : line = true ∧ d = ⟨t, line, phase⟩ := by
              simpa [Config.silentMoves] using hd
            exact .start htr
        | stop =>
            have hd' : (phase ≠ .newline ∧ d = ⟨t, line, .ended⟩) ∨
                (a.flags.multiline = true ∧ phase ≠ .ended) ∧ d = ⟨t, line, .newline⟩ := by
              simpa [Config.silentMoves] using hd
            rcases hd' with ⟨hphase, rfl⟩ | ⟨⟨hlines, hphase⟩, rfl⟩
            · exact .ended htr hphase
            · exact .newline htr hlines hphase

theorem mem_silentNodes :
    m ∈ a.silentNodes node ↔ a.SilentTo node.config m.config ∧ m.consumed = node.consumed := by
  simp only [silentNodes, List.mem_map, List.mem_reverse, List.mem_flatMap, silentTo_iff]
  constructor
  · rintro ⟨c, hc, rfl⟩
    exact ⟨hc, rfl⟩
  · rintro ⟨hc, hconsumed⟩
    exact ⟨m.config, hc, by rw [← hconsumed]⟩

theorem mem_symbolNodes :
    m ∈ a.symbolNodes node ↔
      ∃ sample, a.SymbolTo node.config sample m.config ∧ m.consumed = sample :: node.consumed := by
  unfold symbolNodes SymbolTo
  split
  · rename_i hended
    refine iff_of_false List.not_mem_nil ?_
    rintro ⟨_, ⟨hopen, _⟩, _⟩
    exact hopen hended
  · rename_i hopen
    rw [List.mem_flatMap]
    constructor
    · rintro ⟨tr, htr, hm⟩
      cases tr with
      | epsilon t => exact absurd hm List.not_mem_nil
      | assert anchor t => exact absurd hm List.not_mem_nil
      | symbol s t =>
          obtain ⟨sample, hsample, rfl⟩ := List.mem_map.mp hm
          exact ⟨sample, ⟨hopen, s, t, htr, hsample, rfl⟩, rfl⟩
    · rintro ⟨sample, ⟨_, s, t, htr, hsample, hconfig⟩, hconsumed⟩
      refine ⟨_, htr, List.mem_map.mpr ⟨sample, hsample, ?_⟩⟩
      rw [← hconfig, ← hconsumed]

theorem SilentTo.lt (ha : a.WellFormed) (h : a.SilentTo c d) : d.state < a.size := by
  cases h with
  | epsilon htr => exact ha.target_lt _ _ htr
  | start htr => exact ha.target_lt _ _ htr
  | ended htr _ => exact ha.target_lt _ _ htr
  | newline htr _ _ => exact ha.target_lt _ _ htr

theorem SymbolTo.lt {sample : Nat} (ha : a.WellFormed) (h : a.SymbolTo c sample d) :
    d.state < a.size := by
  obtain ⟨_, s, t, htr, _, rfl⟩ := h
  exact ha.target_lt _ _ htr

/-! ## What steps keep -/

/-- What silent steps keep, closing a layer keeps. -/
theorem closeLayer_forall (marks : Marks) {P : SearchNode → Prop}
    (hsilent : ∀ node m, P node → m ∈ a.silentNodes node → P m)
    (hpassed : ∀ node ∈ passed, P node) (hstack : ∀ node ∈ stack, P node) :
    (∀ node ∈ (a.closeLayer marks passed stack).nodes, P node) ∧
      ∀ node, (a.closeLayer marks passed stack).accepting = some node →
        P node ∧ a.acceptsAt node.config = true := by
  fun_induction closeLayer a marks passed stack with
  | case1 marks passed =>
      refine ⟨fun node hnode => hpassed node (List.mem_reverse.mp hnode), ?_⟩
      intro node hnone
      cases hnone
  | case2 marks passed node stack fresh haccept =>
      have hnode := hstack node List.mem_cons_self
      refine ⟨?_, ?_⟩
      · intro m hm
        rcases List.mem_cons.mp (List.mem_reverse.mp hm) with rfl | hm
        · exact hnode
        · exact hpassed m hm
      · intro m hm
        obtain rfl : node = m := Option.some.inj hm
        exact ⟨hnode, haccept⟩
  | case3 marks passed node stack fresh haccept fewer ih =>
      obtain ⟨hnode, hrest⟩ := List.forall_mem_cons.mp hstack
      refine ih (List.forall_mem_cons.mpr ⟨hnode, hpassed⟩) ?_
      intro m hm
      rcases List.mem_append.mp hm with hm | hm
      · exact hsilent node m hnode hm
      · exact hrest m hm
  | case4 marks passed node stack fresh ih =>
      exact ih hpassed (List.forall_mem_cons.mp hstack).2

/-- Where the nodes of a layer have consumed the same number of symbols, closing the layer
keeps the number. -/
theorem closeLayer_length (marks : Marks) (hlayer : ∀ node ∈ layer, node.consumed.length = n) :
    (∀ node ∈ (a.closeLayer marks [] layer.reverse).nodes, node.consumed.length = n) ∧
      ∀ node, (a.closeLayer marks [] layer.reverse).accepting = some node →
        node.consumed.length = n := by
  have hsilent : ∀ node m : SearchNode, node.consumed.length = n → m ∈ a.silentNodes node →
      m.consumed.length = n := by
    intro node m hnode hm
    rw [(mem_silentNodes.mp hm).2, hnode]
  obtain ⟨hnodes, haccepting⟩ := closeLayer_forall marks hsilent
    (List.forall_mem_nil _) (fun node hnode => hlayer node (List.mem_reverse.mp hnode))
  exact ⟨hnodes, fun node hnode => (haccepting node hnode).1⟩

/-- The nodes that symbols lead to from a layer have consumed one more. -/
theorem length_of_mem_symbolNodes {nodes : List SearchNode}
    (hnodes : ∀ node ∈ nodes, node.consumed.length = n) :
    ∀ m ∈ nodes.flatMap a.symbolNodes, m.consumed.length = n + 1 := by
  intro m hm
  obtain ⟨node, hnode, hm⟩ := List.mem_flatMap.mp hm
  obtain ⟨_, _, hconsumed⟩ := mem_symbolNodes.mp hm
  rw [hconsumed, List.length_cons, hnodes node hnode]

/-- What the first layer has and all steps keep, the node that is found has; and its
configuration accepts. -/
theorem searchLayers_forall {P : SearchNode → Prop}
    (hsilent : ∀ node m, P node → m ∈ a.silentNodes node → P m)
    (hsymbol : ∀ node m, P node → m ∈ a.symbolNodes node → P m)
    (hlayer : ∀ node ∈ layer, P node) (hfound : (a.searchLayers marks layer).found = some node) :
    P node ∧ a.acceptsAt node.config = true := by
  fun_induction searchLayers a marks layer with
  | case1 marks layer closed expanded haccepting =>
      exact (closeLayer_forall marks hsilent (List.forall_mem_nil _)
        (fun m hm => hlayer m (List.mem_reverse.mp hm))).2 node hfound
  | case2 marks layer closed haccepting hempty => cases hfound
  | case3 marks layer closed expanded haccepting hempty fewer later ih =>
      have hnodes := (closeLayer_forall marks hsilent (List.forall_mem_nil _)
        (fun m hm => hlayer m (List.mem_reverse.mp hm))).1
      refine ih ?_ hfound
      intro m hm
      obtain ⟨before, hbefore, hm⟩ := List.mem_flatMap.mp hm
      exact hsymbol before m (hnodes before hbefore) hm

/-! ## Closing a layer -/

/-- What is marked for a node, and then for others, is marked for all of them. -/
theorem seen_iff_cons {new : List SearchNode} {closed : Marks}
    (hindex : node.config.index < marks.size)
    (h : ∀ c, closed.Seen c ↔
      (marks.mark node.config.index).Seen c ∨ ∃ m ∈ new, m.config = c) (c : Config) :
    closed.Seen c ↔ marks.Seen c ∨ ∃ m ∈ node :: new, m.config = c := by
  rw [h, Marks.seen_mark hindex, List.exists_mem_cons_iff, eq_comm (a := c)]
  tauto

/-- What the new nodes of a closed layer are, given the marks before and after. -/
structure Closes (a : Automaton) (marks : Marks) (stack new : List SearchNode)
    (closed : Marks) : Prop where
  size_eq : closed.size = 6 * a.size
  seen_iff : ∀ c, closed.Seen c ↔ marks.Seen c ∨ ∃ node ∈ new, node.config = c
  stack_seen : ∀ node ∈ stack, closed.Seen node.config
  refused : ∀ node ∈ new, ¬ a.acceptsAt node.config = true
  silent : ∀ node ∈ new, ∀ d, a.SilentTo node.config d → closed.Seen d

/-- A node that is fresh and does not accept is new, if what it leads to is put on the
stack. -/
theorem Closes.cons {new : List SearchNode} {closed : Marks}
    (hindex : node.config.index < marks.size) (hrefused : ¬ a.acceptsAt node.config = true)
    (h : Closes a (marks.mark node.config.index) (a.silentNodes node ++ stack) new closed) :
    Closes a marks (node :: stack) (node :: new) closed where
  size_eq := h.size_eq
  seen_iff := seen_iff_cons hindex h.seen_iff
  stack_seen := List.forall_mem_cons.mpr
    ⟨(h.seen_iff _).mpr (Or.inl ((Marks.seen_mark hindex).mpr (Or.inl rfl))),
      fun m hm => h.stack_seen m (List.mem_append_right _ hm)⟩
  refused := List.forall_mem_cons.mpr ⟨hrefused, h.refused⟩
  silent := List.forall_mem_cons.mpr ⟨fun d hd => h.stack_seen ⟨d, node.consumed⟩
    (List.mem_append_left _ (mem_silentNodes.mpr ⟨hd, rfl⟩)), h.silent⟩

/-- Closing a layer that does not accept marks its nodes, which are the new ones among
those on the stack and those that silent steps lead to. -/
theorem closeLayer_spec (ha : a.WellFormed) (hsize : marks.size = 6 * a.size)
    (hstack : ∀ node ∈ stack, node.config.state < a.size)
    (haccepting : (a.closeLayer marks passed stack).accepting = none) :
    ∃ new, (a.closeLayer marks passed stack).nodes = passed.reverse ++ new ∧
      Closes a marks stack new (a.closeLayer marks passed stack).marks := by
  fun_induction closeLayer a marks passed stack with
  | case1 marks passed =>
      exact ⟨[], (List.append_nil _).symm, hsize, by simp, List.forall_mem_nil _,
        List.forall_mem_nil _, List.forall_mem_nil _⟩
  | case2 marks passed node stack fresh haccept => cases haccepting
  | case3 marks passed node stack fresh haccept fewer ih =>
      obtain ⟨_, hrest⟩ := List.forall_mem_cons.mp hstack
      have hnext : ∀ m ∈ a.silentNodes node ++ stack, m.config.state < a.size := by
        intro m hm
        rcases List.mem_append.mp hm with hm | hm
        · exact (mem_silentNodes.mp hm).1.lt ha
        · exact hrest m hm
      obtain ⟨new, hnodes, hcloses⟩ := ih (by rw [Marks.size_mark, hsize]) hnext haccepting
      refine ⟨node :: new, ?_, hcloses.cons (Marks.isFresh_iff.mp fresh).1 haccept⟩
      rw [hnodes, List.reverse_cons, List.append_assoc]
      rfl
  | case4 marks passed node stack fresh ih =>
      obtain ⟨hnode, hrest⟩ := List.forall_mem_cons.mp hstack
      obtain ⟨new, hnodes, hcloses⟩ := ih hsize hrest haccepting
      have hmarked : marks.Seen node.config := by
        by_contra hno
        refine fresh (Marks.isFresh_iff.mpr ⟨?_, hno⟩)
        rw [hsize]
        exact Config.index_lt hnode
      refine ⟨new, hnodes, { hcloses with stack_seen := ?_ }⟩
      exact List.forall_mem_cons.mpr
        ⟨(hcloses.seen_iff _).mpr (Or.inl hmarked), hcloses.stack_seen⟩

/-! ## Between two layers -/

/-- The state of a search in front of a layer whose nodes have consumed `n` symbols. -/
structure Frontier (a : Automaton) (n : Nat) (marks : Marks) (layer : List SearchNode) :
    Prop where
  size_eq : marks.size = 6 * a.size
  layer_lt : ∀ node ∈ layer, node.config.state < a.size
  length_eq : ∀ node ∈ layer, node.consumed.length = n
  refused : ∀ c, marks.Seen c → ¬ a.acceptsAt c = true
  /-- Nothing leads out of the marks but into the layer. -/
  start : marks.Seen a.startConfig ∨ ∃ node ∈ layer, node.config = a.startConfig
  silent : ∀ c d, marks.Seen c → a.SilentTo c d → marks.Seen d
  symbol : ∀ c sample d, marks.Seen c → a.SymbolTo c sample d →
    marks.Seen d ∨ ∃ node ∈ layer, node.config = d
  /-- What fewer symbols reach is marked. -/
  reached : ∀ k c, k < n → a.Reached k c → marks.Seen c

/-- A search starts at its first frontier. -/
theorem Frontier.init (ha : a.WellFormed) :
    Frontier a 0 (.clear (6 * a.size)) [⟨a.startConfig, []⟩] where
  size_eq := Marks.size_clear
  layer_lt := fun node hnode => by
    rw [List.mem_singleton.mp hnode]
    exact ha.start_lt
  length_eq := fun node hnode => by
    rw [List.mem_singleton.mp hnode]
    rfl
  refused := fun c hc => absurd hc Marks.not_seen_clear
  start := Or.inr ⟨_, List.mem_singleton_self _, rfl⟩
  silent := fun c d hc => absurd hc Marks.not_seen_clear
  symbol := fun c sample d hc => absurd hc Marks.not_seen_clear
  reached := fun k c hk => absurd hk (Nat.not_lt_zero k)

/-- Closing a layer keeps the number of symbols. -/
theorem Frontier.closed_length (h : Frontier a n marks layer) :
    (∀ node ∈ (a.closeLayer marks [] layer.reverse).nodes, node.consumed.length = n) ∧
      ∀ node, (a.closeLayer marks [] layer.reverse).accepting = some node →
        node.consumed.length = n :=
  closeLayer_length marks h.length_eq

/-- The state of a search behind a layer that has been closed and does not accept. -/
structure LayerClosed (a : Automaton) (n : Nat) (marks : Marks) (layer : List SearchNode)
    (closed : Layer) : Prop where
  size_eq : closed.marks.size = 6 * a.size
  seen_iff : ∀ c, closed.marks.Seen c ↔ marks.Seen c ∨ ∃ node ∈ closed.nodes, node.config = c
  layer_seen : ∀ c, (marks.Seen c ∨ ∃ node ∈ layer, node.config = c) → closed.marks.Seen c
  refused : ∀ c, closed.marks.Seen c → ¬ a.acceptsAt c = true
  silent : ∀ c d, closed.marks.Seen c → a.SilentTo c d → closed.marks.Seen d
  /-- What so many symbols reach, or fewer, is marked. -/
  reached : ∀ k c, k ≤ n → a.Reached k c → closed.marks.Seen c

/-- Closing a layer that does not accept marks all that so many symbols reach: the start
and the ends of symbols are in the layer or marked, and silent steps have been
followed. -/
theorem Frontier.close (ha : a.WellFormed) (h : Frontier a n marks layer)
    (haccepting : (a.closeLayer marks [] layer.reverse).accepting = none) :
    LayerClosed a n marks layer (a.closeLayer marks [] layer.reverse) := by
  have hlt : ∀ node ∈ layer.reverse, node.config.state < a.size := fun node hnode =>
    h.layer_lt node (List.mem_reverse.mp hnode)
  obtain ⟨new, hnodes, hcloses⟩ := closeLayer_spec ha h.size_eq hlt haccepting
  obtain rfl : (a.closeLayer marks [] layer.reverse).nodes = new := hnodes
  generalize a.closeLayer marks [] layer.reverse = closed at *
  have hlayer : ∀ c, (marks.Seen c ∨ ∃ node ∈ layer, node.config = c) → closed.marks.Seen c := by
    rintro c (hc | ⟨node, hnode, rfl⟩)
    · exact (hcloses.seen_iff c).mpr (Or.inl hc)
    · exact hcloses.stack_seen node (List.mem_reverse.mpr hnode)
  have hsilent : ∀ c d, closed.marks.Seen c → a.SilentTo c d → closed.marks.Seen d := by
    intro c d hc hd
    rcases (hcloses.seen_iff c).mp hc with hold | ⟨node, hnode, rfl⟩
    · exact hlayer d (Or.inl (h.silent c d hold hd))
    · exact hcloses.silent node hnode d hd
  refine ⟨hcloses.size_eq, hcloses.seen_iff, hlayer, ?_, hsilent, ?_⟩
  · intro c hc
    rcases (hcloses.seen_iff c).mp hc with hold | ⟨node, hnode, rfl⟩
    · exact h.refused c hold
    · exact hcloses.refused node hnode
  · intro k c hk hreach
    induction hreach with
    | start => exact hlayer _ h.start
    | silent _ hstep ih => exact hsilent _ _ (ih hk) hstep
    | symbol hbefore hsymbol _ =>
        exact hlayer _ (h.symbol _ _ _ (h.reached _ _ (by omega) hbefore) hsymbol)

/-- The symbols behind a closed layer lead to the next frontier. -/
theorem Frontier.next (ha : a.WellFormed) (h : Frontier a n marks layer)
    (haccepting : (a.closeLayer marks [] layer.reverse).accepting = none) :
    Frontier a (n + 1) (a.closeLayer marks [] layer.reverse).marks
      ((a.closeLayer marks [] layer.reverse).nodes.flatMap a.symbolNodes) := by
  have hclosed := h.close ha haccepting
  refine ⟨hclosed.size_eq, ?_, ?_, hclosed.refused, ?_, hclosed.silent, ?_, ?_⟩
  · intro m hm
    obtain ⟨node, _, hm⟩ := List.mem_flatMap.mp hm
    obtain ⟨_, hsymbol, _⟩ := mem_symbolNodes.mp hm
    exact hsymbol.lt ha
  · exact length_of_mem_symbolNodes h.closed_length.1
  · exact Or.inl (hclosed.reached 0 _ (Nat.zero_le n) .start)
  · intro c sample d hc hsymbol
    rcases (hclosed.seen_iff c).mp hc with hold | ⟨node, hnode, rfl⟩
    · -- An earlier mark: its symbols led into the layer that has just been closed.
      exact Or.inl (hclosed.layer_seen d (h.symbol c sample d hold hsymbol))
    · exact Or.inr ⟨⟨d, sample :: node.consumed⟩, List.mem_flatMap.mpr ⟨node, hnode,
        mem_symbolNodes.mpr ⟨sample, hsymbol, rfl⟩⟩, rfl⟩
  · intro k c hk hreach
    exact hclosed.reached k c (Nat.lt_succ_iff.mp hk) hreach

/-- Where a layer adds no mark, all that can be reached is marked. -/
theorem Frontier.seen_of_no_nodes (ha : a.WellFormed) (h : Frontier a n marks layer)
    (haccepting : (a.closeLayer marks [] layer.reverse).accepting = none)
    (hempty : (a.closeLayer marks [] layer.reverse).nodes = []) (hreach : a.Reached k c) :
    marks.Seen c := by
  have hclosed := h.close ha haccepting
  have hlayer : ∀ c, (marks.Seen c ∨ ∃ node ∈ layer, node.config = c) → marks.Seen c := by
    intro c hc
    rcases (hclosed.seen_iff c).mp (hclosed.layer_seen c hc) with hold | ⟨node, hnode, _⟩
    · exact hold
    · rw [hempty] at hnode
      exact absurd hnode List.not_mem_nil
  induction hreach with
  | start => exact hlayer _ h.start
  | silent _ hsilent ih => exact h.silent _ _ ih hsilent
  | symbol _ hsymbol ih => exact hlayer _ (h.symbol _ _ _ ih hsymbol)

/-- From any frontier on, a search finds a node with no more symbols than any accepting
configuration takes. -/
theorem exists_found_of_frontier (ha : a.WellFormed) (hreach : a.Reached k c)
    (haccept : a.acceptsAt c = true) (marks : Marks) (layer : List SearchNode) :
    ∀ n, Frontier a n marks layer →
      ∃ node, (a.searchLayers marks layer).found = some node ∧ node.consumed.length ≤ k := by
  fun_induction searchLayers a marks layer with
  | case1 marks layer closed expanded haccepting =>
      intro n h
      obtain ⟨node, hnode⟩ := Option.isSome_iff_exists.mp haccepting
      have hlength := h.closed_length.2 node hnode
      have hle : n ≤ k := by
        by_contra hlt
        exact h.refused c (h.reached k c (Nat.lt_of_not_le hlt) hreach) haccept
      exact ⟨node, hnode, hlength ▸ hle⟩
  | case2 marks layer closed haccepting hempty =>
      intro n h
      have hnone := Option.not_isSome_iff_eq_none.mp haccepting
      exact absurd haccept (h.refused c (h.seen_of_no_nodes ha hnone hempty hreach))
  | case3 marks layer closed expanded haccepting hempty fewer later ih =>
      intro n h
      exact ih (n + 1) (h.next ha (Option.not_isSome_iff_eq_none.mp haccepting))

/-- A search finds a node with no more symbols than any accepting configuration that it
can reach takes. -/
theorem exists_found (ha : a.WellFormed) (hreach : a.Reached k c)
    (haccept : a.acceptsAt c = true) :
    ∃ node, a.exploration.found = some node ∧ node.consumed.length ≤ k :=
  exists_found_of_frontier ha hreach haccept _ _ 0 (.init ha)

end Automaton

end RegexEngine
