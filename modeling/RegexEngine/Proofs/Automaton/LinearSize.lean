/-
# `Assembly.ofRegex` — the size of an automaton, exactly

The numbers of states and transitions are sums over the nodes of the expression
(`Regex.kinds`) and its chains of alternations (`Regex.chains`).  That they are exact says
in particular that wiring never meets a silent transition that is there already: every
transition of the construction is counted, and every one is in the automaton.

In the length of the source the size is linear.  Every symbol of a pattern pays for what it
adds (`Pattern.Derives.blockSize_le`, `Pattern.Derives.transitions_le`).  Two things are added
without a symbol of their own.  The empty pattern has a state.  And joining two factors
costs a transition, so a phrase saves some of what its symbols pay.  A bar is worth the entry
and the exit of its chain, and four silent transitions, because the chain may have no other
bar.
-/
import RegexEngine.Proofs.Automaton.Assembly
import RegexEngine.Proofs.Automaton.Size
import RegexEngine.Proofs.Pattern.Completeness
import RegexEngine.Proofs.Text.Writing

namespace RegexEngine

namespace Regex

variable (r : Regex)

/-! ## Branches and wholes -/

/-- As a branch, an alternation is spared its entry and its exit. -/
theorem blockSize_true_le : r.blockSize true ≤ r.blockSize false := by
  cases r with
  | alternate l r =>
      simp only [blockSize, if_true, Bool.false_eq_true, if_false]
      omega
  | _ => exact Nat.le_refl _

/-- As a branch, an alternation is spared the transitions between its branches and its
entry and exit. -/
theorem wires_true_add_le : r.wires true + 2 * r.branches.length ≤ r.wires false + 2 := by
  cases r with
  | alternate l r =>
      simp only [wires, if_true, Bool.false_eq_true, if_false]
      omega
  | _ => exact Nat.le_refl _

/-- The number of transitions that are made for an expression. -/
def transitions : Nat := r.kinds.count .symbol + r.kinds.count .anchor + r.wires false

theorem transitions_symbol (s : SymbolSet) : (symbol s).transitions = 1 := rfl

variable (l : Regex)

theorem transitions_concat : (concat l r).transitions = l.transitions + r.transitions + 1 := by
  simp only [transitions, kinds, wires, List.count_cons_of_ne, List.count_append, ne_eq,
    reduceCtorEq, not_false_eq_true]
  omega

theorem transitions_alternate_le :
    (alternate l r).transitions ≤ l.transitions + r.transitions + 4 := by
  have hl := l.wires_true_add_le
  have hr := r.wires_true_add_le
  simp only [transitions, kinds, wires, branches_alternate, List.length_append,
    List.count_cons_of_ne, List.count_append, ne_eq, reduceCtorEq, not_false_eq_true,
    Bool.false_eq_true, if_false]
  omega

theorem transitions_apply_le (q : Quantifier) : (q.apply r).transitions ≤ r.transitions + 4 := by
  cases q <;>
    simp only [Quantifier.apply, transitions, kinds, wires, List.count_cons_of_ne, ne_eq,
      reduceCtorEq, not_false_eq_true] <;> omega

theorem blockSize_apply_le (q : Quantifier) :
    (q.apply r).blockSize false ≤ r.blockSize false + 2 := by
  cases q <;> simp only [Quantifier.apply, blockSize] <;> omega

end Regex

/-! ## What the symbols of a pattern pay for -/

namespace Pattern

variable {phrase : Phrase} {budget : Nat} {cs : List Nat} {r : Regex}

/-- Only an alternation can be empty. -/
theorem Derives.length_pos (h : Derives phrase budget cs r) (hphrase : phrase ≠ .alternation) :
    0 < cs.length := by
  induction h with
  | any | start | stop | escape _ | literal _ | group _ _ | symbolClass _ => exact Nat.succ_pos _
  | once _ ih | single _ ih | branch _ ih => exact ih (by decide)
  | quantified _ _ _ ih | append _ _ ih _ | bar _ _ ih _ =>
      rw [List.length_append]
      exact Nat.add_pos_left (ih (by decide)) _
  | empty | alternation _ _ => exact absurd rfl hphrase

/-- Every symbol pays for two states; the empty pattern has one for nothing. -/
theorem Derives.blockSize_le (h : Derives phrase budget cs r) :
    r.blockSize false ≤ max 1 (2 * cs.length) := by
  induction h with
  | any | start | stop | literal _ => exact Nat.le_max_right 1 2
  | empty => exact Nat.le_max_left 1 0
  | escape _ | symbolClass _ =>
      rw [List.length_cons, Regex.blockSize]
      omega
  | group _ ih =>
      rw [List.length_cons, List.length_append]
      omega
  | once _ ih | single _ ih | branch _ ih | alternation _ ih => exact ih
  | @quantified _ _ r q hatom _ ih =>
      have hpos := hatom.length_pos (by decide)
      have hsize := r.blockSize_apply_le q
      rw [List.length_append, List.length_singleton]
      omega
  | append hl hr ihl ihr =>
      have hlpos := hl.length_pos (by decide)
      have hrpos := hr.length_pos (by decide)
      rw [List.length_append, Regex.blockSize]
      omega
  | @bar _ _ _ l r hl hr ihl ihr =>
      have hlpos := hl.length_pos (by decide)
      have hrpos := hr.length_pos (by decide)
      have hlsize := l.blockSize_true_le
      have hrsize := r.blockSize_true_le
      rw [List.length_append, List.length_cons, Regex.blockSize, if_neg Bool.false_ne_true]
      omega

/-- Every symbol pays for four transitions, of which a phrase that is not empty leaves
three. -/
theorem Derives.transitions_le (h : Derives phrase budget cs r) :
    r.transitions ≤ 4 * cs.length - 3 := by
  induction h with
  | any | start | stop | literal _ => exact Nat.le_refl 1
  | empty => exact Nat.le_refl 0
  | escape _ | symbolClass _ =>
      rw [List.length_cons, Regex.transitions_symbol]
      omega
  | group _ ih =>
      rw [List.length_cons, List.length_append]
      omega
  | once _ ih | single _ ih | branch _ ih | alternation _ ih => exact ih
  | @quantified _ _ r q hatom _ ih =>
      have hpos := hatom.length_pos (by decide)
      have happly := r.transitions_apply_le q
      rw [List.length_append, List.length_singleton]
      omega
  | append hl hr ihl ihr =>
      have hlpos := hl.length_pos (by decide)
      have hrpos := hr.length_pos (by decide)
      rw [List.length_append, Regex.transitions_concat]
      omega
  | @bar _ _ _ l r hl hr ihl ihr =>
      have hlpos := hl.length_pos (by decide)
      have hrpos := hr.length_pos (by decide)
      have halternate := r.transitions_alternate_le l
      rw [List.length_append, List.length_cons]
      omega

end Pattern

/-! ## The size of an automaton -/

namespace Assembly

/-- The automaton that is put together for an expression has exactly the states and the
transitions that the nodes of the expression and its chains of alternations add up to.  For
an expression that is read from a source, there are at most two states and four transitions
for each unit, but at least one state. -/
theorem exact_linear_size :
    (∀ (r : Regex) (flags : Flags), (ofRegex r flags).automaton.stats =
      { states := 2 * (r.kinds.count .symbol + r.kinds.count .anchor) + r.kinds.count .empty +
          2 * r.kinds.count .star + 2 * r.kinds.count .optional + r.kinds.count .plus +
          2 * (r.chains false).length
        symbolTransitions := r.kinds.count .symbol
        epsilonTransitions := 4 * r.kinds.count .star + 2 * r.kinds.count .plus +
          3 * r.kinds.count .optional + r.kinds.count .concat +
          ((r.chains false).map (2 * ·.length)).sum
        assertTransitions := r.kinds.count .anchor }) ∧
    ∀ (source : Text) (flags : Flags) (r : Regex), Pattern.parseRegex source = .ok r →
      (ofRegex r flags).automaton.stats.states ≤ max 1 (2 * source.length) ∧
      (ofRegex r flags).automaton.stats.symbolTransitions +
        (ofRegex r flags).automaton.stats.epsilonTransitions +
        (ofRegex r flags).automaton.stats.assertTransitions ≤ 4 * source.length := by
  have hstats : ∀ r flags, (ofRegex r flags).automaton.stats = (Automaton.ofRegex r flags).stats :=
    fun r flags => by rw [ofRegex_eq, automaton_ofAutomaton]
  constructor
  · intro r flags
    rw [hstats, Automaton.stats_ofRegex, r.blockSize_eq, r.wires_eq]
  · intro source flags r hparse
    have hderives := Pattern.derives_of_parseRegex hparse
    have hstates := hderives.blockSize_le
    have htransitions := hderives.transitions_le
    have hlength : source.symbols.length ≤ source.length := Symbol.length_ofUnits_le _
    rw [hstats, Automaton.stats_ofRegex]
    constructor
    · show r.blockSize false ≤ _
      omega
    · show r.kinds.count .symbol + r.wires false + r.kinds.count .anchor ≤ _
      rw [Regex.transitions] at htransitions
      omega

/-- The expression of `(()+)*|(a|.b)?$`, in which a loop goes around a loop around nothing
and a chain of alternations is inside another one. -/
def nestedChains : Regex :=
  .alternate (.star (.plus .empty))
    (.concat (.optional (.alternate (.literal 'a'.toNat)
      (.concat (.symbol .any) (.literal 'b'.toNat)))) (.anchor .stop))

theorem nestedChains_size :
    Pattern.parseRegex (.ofString "(()+)*|(a|.b)?$") = .ok nestedChains ∧
      (ofRegex nestedChains {}).automaton.stats = ⟨18, 3, 19, 1⟩ ∧
      18 ≤ max 1 (2 * (Text.ofString "(()+)*|(a|.b)?$").length) ∧
      3 + 19 + 1 ≤ 4 * (Text.ofString "(()+)*|(a|.b)?$").length := by
  have hparse : Pattern.parseRegex (.ofString "(()+)*|(a|.b)?$") = .ok nestedChains := by
    decide +kernel
  have hstats := exact_linear_size.1 nestedChains {}
  have hbounds := exact_linear_size.2 _ {} _ hparse
  rw [hstats] at hbounds
  exact ⟨hparse, hstats, hbounds⟩

end Assembly

end RegexEngine
