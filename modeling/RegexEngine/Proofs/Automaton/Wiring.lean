/-
# `Assembly.WellWired` — every automaton that is put together is well formed

An automaton that is put together from an expression is a graph with one way in and one
way out: every state is reached from the start and leads to the accepting state, which
leads nowhere.  It has no needless part: no silent transition is there twice.  And its
loops are those of the expression: without star and plus there are none
(`Assembly.wellWired_ofRegex`).

Each of these is an induction over blocks, with the transitions out of a block's exit and
the rows behind it as parameters.  That every state lies on the way comes in two forms, as
the construction does.  A whole block leads from its first state to its exit (`Joined`);
the block of a branch leads from the first states of its branches to an exit outside
(`JoinedAsBranch`).  That there are no cycles is told by the numbers of the states: without
loops, every transition leads to a later one (`Regex.ascends_block`).
-/
import RegexEngine.Proofs.Automaton.Assembly

namespace RegexEngine

namespace Automaton

/-! ## Edges -/

/-- Some transition leads from the one state to the other. -/
def Edge (a : Automaton) (p q : Nat) : Prop := ∃ tr ∈ a.out p, tr.target = q

/-- Following transitions leads from state `p` to state `q`, and from there to state `r`. -/
structure Between (a : Automaton) (p q r : Nat) : Prop where
  front : Relation.ReflTransGen a.Edge p q
  back : Relation.ReflTransGen a.Edge q r

variable {a : Automaton} {p q r t : Nat} {row : List Transition}

theorem edge_of_out {tr : Transition} (hout : a.out p = row) (htr : tr ∈ row) :
    a.Edge p tr.target :=
  ⟨tr, hout ▸ htr, rfl⟩

theorem edge_of_epsilon (hout : a.out p = row) (ht : .epsilon t ∈ row) : a.Edge p t :=
  edge_of_out hout ht

theorem Between.refl (a : Automaton) (q : Nat) : a.Between q q q := ⟨.refl, .refl⟩

theorem Between.total (h : a.Between p q r) : Relation.ReflTransGen a.Edge p r :=
  h.front.trans h.back

theorem Between.head (h : a.Between p q r) (hpath : Relation.ReflTransGen a.Edge t p) :
    a.Between t q r :=
  ⟨hpath.trans h.front, h.back⟩

theorem Between.tail (h : a.Between p q r) (hpath : Relation.ReflTransGen a.Edge r t) :
    a.Between p q t :=
  ⟨h.front, h.back.trans hpath⟩

/-! ## Rows where they belong -/

theorem lists_append {xs ys : List (List Transition)} :
    a.Lists q (xs ++ ys) ↔ a.Lists q xs ∧ a.Lists (q + xs.length) ys := by
  induction xs generalizing q with
  | nil => exact (iff_of_eq (true_and _)).symm
  | cons x xs ih =>
      show a.out q = x ∧ a.Lists (q + 1) (xs ++ ys) ↔ _
      rw [ih, List.length_cons, Nat.add_assoc, Nat.add_comm 1, and_assoc.symm]
      rfl

variable {flags : Flags} {asBranch : Bool} {base stop exit : Nat} {out : List Transition}
  {following : List (List Transition)} {l r : Regex}

/-- The rows behind a block are where the block stops. -/
theorem Lists.behind_block
    (h : a.Lists base (r.block flags asBranch base stop out following))
    (hstop : stop = base + r.blockSize asBranch) : a.Lists stop following := by
  rw [← List.nil_append following, Regex.block_append] at h
  have hrest := (lists_append.mp h).2
  rwa [Regex.length_block, List.length_nil, Nat.add_zero, ← hstop] at hrest

/-- The transitions out of its exit are those that the block was given. -/
theorem Lists.out_exit (h : a.Lists base (r.block flags false base stop out following))
    (hstop : stop = base + r.blockSize false) : a.out (r.blockExit base stop) = out := by
  obtain ⟨before, after, hexit, hrows⟩ := Regex.openAt_block flags r following hstop
  dsimp only at hrows
  rw [hrows] at h
  have hrest := (lists_append.mp h).2
  rw [hexit] at hrest
  exact hrest.1

/-! ## Every state lies between entry and exit -/

/-- In the block of an expression, every state lies between the first one and the exit. -/
def Joined (a : Automaton) (flags : Flags) (r : Regex) : Prop :=
  ∀ base stop out following, stop = base + r.blockSize false →
    a.Lists base (r.block flags false base stop out following) →
    ∀ q, base ≤ q → q < stop → a.Between base q (r.blockExit base stop)

/-- In the block of a branch, every state lies between the first state of some branch and
the exit of the alternation. -/
def JoinedAsBranch (a : Automaton) (flags : Flags) (r : Regex) : Prop :=
  ∀ base stop exit following, stop = base + r.blockSize true →
    a.Lists base (r.block flags true base stop [.epsilon exit] following) →
    ∀ q, base ≤ q → q < stop → ∃ e ∈ r.branchBases base stop, a.Between e q exit

theorem joined_empty : a.Joined flags .empty := by
  rintro base stop out following rfl _ q hbase hstop
  obtain rfl : q = base := Nat.le_antisymm (Nat.le_of_lt_succ hstop) hbase
  exact .refl a q

/-- Two states, of which the first leads to the second. -/
theorem between_pair (hedge : a.Edge base (base + 1)) (hbase : base ≤ q) (hstop : q < base + 2) :
    a.Between base q (base + 1) := by
  rcases Nat.eq_or_lt_of_le hbase with rfl | hlt
  · exact (Between.refl a base).tail (.single hedge)
  · obtain rfl : q = base + 1 := Nat.le_antisymm (Nat.le_of_lt_succ hstop) hlt
    exact (Between.refl a (base + 1)).head (.single hedge)

theorem joined_symbol (s : SymbolSet) : a.Joined flags (.symbol s) := by
  rintro base stop out following rfl ⟨hrow, _⟩ q hbase hstop
  exact between_pair (edge_of_out hrow List.mem_cons_self) hbase hstop

theorem joined_anchor (anchor : Anchor) : a.Joined flags (.anchor anchor) := by
  rintro base stop out following rfl ⟨hrow, _⟩ q hbase hstop
  exact between_pair (edge_of_out hrow List.mem_cons_self) hbase hstop

theorem Joined.concat (hl : a.Joined flags l) (hr : a.Joined flags r) :
    a.Joined flags (.concat l r) := by
  intro base stop out following hstop hlists q hbase hlt
  rw [Regex.blockSize] at hstop
  have hmiddle : stop - r.blockSize false = base + l.blockSize false := by omega
  have hsplit : stop = stop - r.blockSize false + r.blockSize false := by omega
  have hfront : a.Lists base (l.block flags false base (stop - r.blockSize false)
    [.epsilon (stop - r.blockSize false)]
    (r.block flags false (stop - r.blockSize false) stop out following)) := hlists
  have hback := hfront.behind_block hmiddle
  have hedge : a.Edge _ _ := edge_of_epsilon (hfront.out_exit hmiddle) List.mem_cons_self
  have hlpos := l.blockSize_pos false
  have hrpos := r.blockSize_pos false
  rcases Nat.lt_or_ge q (stop - r.blockSize false) with hq | hq
  · have hfirst := hr _ _ _ _ hsplit hback (stop - r.blockSize false) (Nat.le_refl _) (by omega)
    exact (hl _ _ _ _ hmiddle hfront q hbase hq).tail (.head hedge hfirst.total)
  · have hfirst := hl _ _ _ _ hmiddle hfront base (Nat.le_refl _) (by omega)
    exact (hr _ _ _ _ hsplit hback q hq hlt).head (.tail hfirst.total hedge)

theorem Joined.star (h : a.Joined flags r) : a.Joined flags (.star r) := by
  rintro base stop out following hstop ⟨hrow, _, hlists⟩ q hbase hlt
  rw [Regex.blockSize] at hstop
  have hbody : stop = base + 2 + r.blockSize false := by omega
  have hskip : a.Edge base (base + 1) := edge_of_epsilon hrow (by simp)
  rcases Nat.lt_or_ge q (base + 2) with hq | hq
  · exact between_pair hskip hbase hq
  · have henter : a.Edge base (base + 2) := edge_of_epsilon hrow (by simp)
    have hleave : a.Edge _ (base + 1) := edge_of_epsilon (hlists.out_exit hbody) (by simp)
    exact ((h _ _ _ _ hbody hlists q hq hlt).head (.single henter)).tail (.single hleave)

theorem Joined.plus (h : a.Joined flags r) : a.Joined flags (.plus r) := by
  intro base stop out following hstop hlists q hbase hlt
  rw [Regex.blockSize] at hstop
  have hpos := r.blockSize_pos false
  have hbody : stop - 1 = base + r.blockSize false := by omega
  have hlists : a.Lists base (r.block flags false base (stop - 1)
    [.epsilon base, .epsilon (stop - 1)] (out :: following)) := hlists
  have hleave : a.Edge _ (stop - 1) := edge_of_epsilon (hlists.out_exit hbody) (by simp)
  rcases Nat.lt_or_ge q (stop - 1) with hq | hq
  · exact (h _ _ _ _ hbody hlists q hbase hq).tail (.single hleave)
  · obtain rfl : q = stop - 1 := by omega
    have hfirst := h _ _ _ _ hbody hlists base (Nat.le_refl _) (by omega)
    exact (Between.refl a (stop - 1)).head (.tail hfirst.total hleave)

theorem Joined.optional (h : a.Joined flags r) : a.Joined flags (.optional r) := by
  rintro base stop out following hstop ⟨hrow, hlists⟩ q hbase hlt
  rw [Regex.blockSize] at hstop
  have hbody : stop - 1 = base + 1 + r.blockSize false := by omega
  have hskip : a.Edge base (stop - 1) := edge_of_epsilon hrow (by simp)
  rcases Nat.eq_or_lt_of_le hbase with rfl | hq
  · exact (Between.refl a base).tail (.single hskip)
  · rcases Nat.lt_or_ge q (stop - 1) with hq' | hq'
    · have henter : a.Edge base (base + 1) := edge_of_epsilon hrow (by simp)
      have hleave : a.Edge _ (stop - 1) := edge_of_epsilon (hlists.out_exit hbody) (by simp)
      exact ((h _ _ _ _ hbody hlists q hq hq').head (.single henter)).tail (.single hleave)
    · obtain rfl : q = stop - 1 := by omega
      exact (Between.refl a (stop - 1)).head (.single hskip)

/-- As a branch, an expression that is no alternation is its own block, whose exit jumps to
the exit of the alternation. -/
theorem Joined.branch (h : a.Joined flags r) (hr : ∀ l₁ l₂, r ≠ .alternate l₁ l₂) :
    a.JoinedAsBranch flags r := by
  intro base stop exit following hstop hlists q hbase hlt
  obtain ⟨hsize, hbases, hblock⟩ := Regex.branch_eq_whole hr
  rw [hsize] at hstop
  rw [hblock] at hlists
  have hleave : a.Edge _ exit := edge_of_epsilon (hlists.out_exit hstop) List.mem_cons_self
  refine ⟨base, ?_, (h _ _ _ _ hstop hlists q hbase hlt).tail (.single hleave)⟩
  rw [hbases]
  exact Set.mem_singleton base

theorem JoinedAsBranch.alternate (hl : a.JoinedAsBranch flags l) (hr : a.JoinedAsBranch flags r) :
    a.JoinedAsBranch flags (.alternate l r) := by
  intro base stop exit following hstop hlists q hbase hlt
  simp only [Regex.blockSize, if_true, Nat.zero_add] at hstop
  have hmiddle : stop - r.blockSize true = base + l.blockSize true := by omega
  have hsplit : stop = stop - r.blockSize true + r.blockSize true := by omega
  have hfront : a.Lists base (l.block flags true base (stop - r.blockSize true) [.epsilon exit]
    (r.block flags true (stop - r.blockSize true) stop [.epsilon exit] following)) := hlists
  rcases Nat.lt_or_ge q (stop - r.blockSize true) with hq | hq
  · obtain ⟨e, he, hbetween⟩ := hl _ _ _ _ hmiddle hfront q hbase hq
    exact ⟨e, Or.inl he, hbetween⟩
  · obtain ⟨e, he, hbetween⟩ := hr _ _ _ _ hsplit (hfront.behind_block hmiddle) q hq hlt
    exact ⟨e, Or.inr he, hbetween⟩

theorem JoinedAsBranch.whole (h : a.JoinedAsBranch flags (.alternate l r)) :
    a.Joined flags (.alternate l r) := by
  rintro base stop out following hstop ⟨hrow, hlists⟩ q hbase hlt
  have hbody := Regex.alternate_body hstop
  have hpos := (Regex.alternate l r).blockSize_pos true
  have hbranch : ∀ q, base + 1 ≤ q → q < stop - 1 → a.Between base q (stop - 1) := by
    intro q hq hq'
    obtain ⟨e, he, hbetween⟩ := h _ _ _ _ hbody hlists q hq hq'
    have hentry : .epsilon e ∈ (Regex.alternate l r).branchEntries (base + 1) (stop - 1) [] :=
      Regex.mem_branchEntries.mpr (Or.inl ⟨e, he, rfl⟩)
    exact hbetween.head (.single (edge_of_epsilon hrow hentry))
  have hfirst := (hbranch (base + 1) (Nat.le_refl _) (by omega)).total
  rcases Nat.eq_or_lt_of_le hbase with rfl | hq
  · exact (Between.refl a base).tail hfirst
  · rcases Nat.lt_or_ge q (stop - 1) with hq' | hq'
    · exact hbranch q hq hq'
    · obtain rfl : q = stop - 1 := by omega
      exact (Between.refl a (stop - 1)).head hfirst

theorem joined_and_branch (a : Automaton) (flags : Flags) (r : Regex) :
    a.Joined flags r ∧ a.JoinedAsBranch flags r := by
  have both : ∀ {r : Regex}, (∀ l₁ l₂, r ≠ .alternate l₁ l₂) → a.Joined flags r →
      a.Joined flags r ∧ a.JoinedAsBranch flags r := fun hr h => ⟨h, h.branch hr⟩
  induction r with
  | empty => exact both nofun joined_empty
  | symbol s => exact both nofun (joined_symbol s)
  | anchor anchor => exact both nofun (joined_anchor anchor)
  | concat l r ihl ihr => exact both nofun (ihl.1.concat ihr.1)
  | alternate l r ihl ihr =>
      have hbranch := ihl.2.alternate ihr.2
      exact ⟨hbranch.whole, hbranch⟩
  | star r ih => exact both nofun ih.1.star
  | plus r ih => exact both nofun ih.1.plus
  | optional r ih => exact both nofun ih.1.optional

/-- Every state of the automaton of an expression lies between the start and the accepting
state. -/
theorem between_ofRegex (r : Regex) (flags : Flags) (hq : q < (ofRegex r flags).size) :
    (ofRegex r flags).Between (ofRegex r flags).start q (ofRegex r flags).accept := by
  rw [size_ofRegex] at hq
  exact (joined_and_branch _ flags r).1 0 _ [] [] (Nat.zero_add _).symm (lists_ofRegex r flags) q
    (Nat.zero_le q) hq

/-- The accepting state has no transitions. -/
theorem out_accept_ofRegex (r : Regex) (flags : Flags) :
    (ofRegex r flags).out (ofRegex r flags).accept = [] :=
  (lists_ofRegex r flags).out_exit (Nat.zero_add _).symm

end Automaton

/-! ## No transition is listed twice -/

namespace Regex

variable {flags : Flags} {asBranch : Bool} {base stop : Nat} {out : List Transition}
  {following : List (List Transition)} {r : Regex}

/-- Branches begin one behind the other. -/
theorem pairwise_branchFragments (base : Nat) (rs : List Regex) :
    (branchFragments base rs).Pairwise (·.entry < ·.entry) ∧
      ∀ f ∈ branchFragments base rs, base ≤ f.entry := by
  induction rs generalizing base with
  | nil => exact ⟨.nil, List.forall_mem_nil _⟩
  | cons r rest ih =>
      obtain ⟨hpairwise, hle⟩ := ih (base + r.blockSize false)
      have hpos := r.blockSize_pos false
      have hlt : ∀ f ∈ branchFragments (base + r.blockSize false) rest, base < f.entry := by
        intro f hf
        have := hle f hf
        omega
      exact ⟨List.pairwise_cons.mpr ⟨hlt, hpairwise⟩,
        List.forall_mem_cons.mpr ⟨Nat.le_refl base, fun f hf => Nat.le_of_lt (hlt f hf)⟩⟩

theorem nodup_branchEntries (r : Regex) (hstop : stop = base + r.blockSize true) :
    (r.branchEntries base stop []).Nodup := by
  obtain ⟨_, hentries, _⟩ := branches_layout {} r
  rw [hentries _ _ _ hstop, List.append_nil]
  refine List.pairwise_map.mpr ((pairwise_branchFragments base r.branches).1.imp ?_)
  intro f g hlt heq
  exact Nat.ne_of_lt hlt (Transition.epsilon.inj heq)

theorem nodup_pair {p q : Nat} (h : p ≠ q) : [Transition.epsilon p, .epsilon q].Nodup :=
  List.nodup_cons.mpr ⟨Arena.epsilon_not_mem_singleton h, List.nodup_singleton _⟩

/-- No row of a block lists a transition twice, if that of its exit does not. -/
theorem nodup_block (hstop : stop = base + r.blockSize asBranch) (hout : out.Nodup)
    (hrest : ∀ row ∈ following, row.Nodup) :
    ∀ row ∈ r.block flags asBranch base stop out following, row.Nodup := by
  induction r generalizing asBranch base stop out following with
  | empty => exact List.forall_mem_cons.mpr ⟨hout, hrest⟩
  | symbol | anchor =>
      exact List.forall_mem_cons.mpr ⟨List.nodup_singleton _,
        List.forall_mem_cons.mpr ⟨hout, hrest⟩⟩
  | concat l r ihl ihr =>
      rw [blockSize] at hstop
      exact ihl (by omega) (List.nodup_singleton _) (ihr (by omega) hout hrest)
  | alternate l r ihl ihr =>
      cases asBranch with
      | true =>
          simp only [blockSize, if_true, Nat.zero_add] at hstop
          exact ihl (by omega) hout (ihr (by omega) hout hrest)
      | false =>
          have hbody := Regex.alternate_body hstop
          simp only [blockSize, Bool.false_eq_true, if_false] at hstop
          exact List.forall_mem_cons.mpr ⟨nodup_branchEntries (.alternate l r) hbody,
            ihl (by omega) (List.nodup_singleton _) (ihr (by omega) (List.nodup_singleton _)
              (List.forall_mem_cons.mpr ⟨hout, hrest⟩))⟩
  | star r ih =>
      rw [blockSize] at hstop
      exact List.forall_mem_cons.mpr ⟨nodup_pair (by omega), List.forall_mem_cons.mpr ⟨hout,
        ih (by omega) (nodup_pair (by omega)) hrest⟩⟩
  | plus r ih =>
      rw [blockSize] at hstop
      have hpos := r.blockSize_pos false
      exact ih (by omega) (nodup_pair (by omega)) (List.forall_mem_cons.mpr ⟨hout, hrest⟩)
  | optional r ih =>
      rw [blockSize] at hstop
      have hpos := r.blockSize_pos false
      exact List.forall_mem_cons.mpr ⟨nodup_pair (by omega), ih (by omega)
        (List.nodup_singleton _) (List.forall_mem_cons.mpr ⟨hout, hrest⟩)⟩

/-! ## Without loops, transitions lead to later states -/

/-- There is no star and no plus in the expression. -/
def LoopFree : Regex → Prop
  | .star _ | .plus _ => False
  | .concat l r | .alternate l r => l.LoopFree ∧ r.LoopFree
  | .optional r => r.LoopFree
  | .empty | .symbol _ | .anchor _ => True

/-- In rows that are numbered from `q` on, every transition leads to a later state. -/
def Ascends : Nat → List (List Transition) → Prop
  | _, [] => True
  | q, row :: rows => (∀ tr ∈ row, q < tr.target) ∧ Ascends (q + 1) rows

theorem Ascends.lt_target {q k : Nat} {rows : List (List Transition)} {row : List Transition}
    (h : Ascends q rows) (hrow : rows[k]? = some row) : ∀ tr ∈ row, q + k < tr.target := by
  induction rows generalizing q k with
  | nil => cases hrow
  | cons first rows ih =>
      obtain ⟨hfirst, hrows⟩ := h
      cases k with
      | zero =>
          obtain rfl : first = row := Option.some.inj hrow
          exact hfirst
      | succ k =>
          rw [Nat.add_comm k 1, ← Nat.add_assoc]
          exact ih hrows hrow

theorem lt_target_branchEntries (r : Regex) (hstop : stop = base + 1 + r.blockSize true) :
    ∀ tr ∈ r.branchEntries (base + 1) stop [], base < tr.target := by
  obtain ⟨_, hentries, _⟩ := branches_layout {} r
  rw [hentries _ _ _ hstop, List.append_nil]
  exact List.forall_mem_map.mpr (pairwise_branchFragments (base + 1) r.branches).2

/-- An exit that is the last state of its block leads behind the block. -/
theorem ascends_exit (hpos : 0 < stop) (hout : ∀ tr ∈ out, stop ≤ tr.target)
    (hrest : Ascends stop following) : Ascends (stop - 1) (out :: following) := by
  have hlast : stop - 1 + 1 = stop := Nat.sub_add_cancel hpos
  rw [← hlast] at hout hrest
  exact ⟨hout, hrest⟩

/-- The rows of a block without loops lead to later states, if those out of its exit lead
behind the block. -/
theorem ascends_block (hr : r.LoopFree) (hstop : stop = base + r.blockSize asBranch)
    (hout : ∀ tr ∈ out, stop ≤ tr.target) (hrest : Ascends stop following) :
    Ascends base (r.block flags asBranch base stop out following) := by
  have hone : ∀ q t, q ≤ t → ∀ tr ∈ [Transition.epsilon t], q ≤ tr.target := fun q t h =>
    List.forall_mem_singleton.mpr h
  induction r generalizing asBranch base stop out following with
  | empty =>
      subst hstop
      exact ⟨hout, hrest⟩
  | symbol | anchor =>
      subst hstop
      exact ⟨List.forall_mem_singleton.mpr (Nat.lt_succ_self base), hout, hrest⟩
  | concat l r ihl ihr =>
      rw [blockSize] at hstop
      exact ihl hr.1 (by omega) (hone _ _ (Nat.le_refl _)) (ihr hr.2 (by omega) hout hrest)
  | alternate l r ihl ihr =>
      cases asBranch with
      | true =>
          simp only [blockSize, if_true, Nat.zero_add] at hstop
          have hout' : ∀ tr ∈ out, stop - r.blockSize true ≤ tr.target := fun tr htr =>
            Nat.le_trans (Nat.sub_le _ _) (hout tr htr)
          exact ihl hr.1 (by omega) hout' (ihr hr.2 (by omega) hout hrest)
      | false =>
          have hbody := Regex.alternate_body hstop
          simp only [blockSize, Bool.false_eq_true, if_false] at hstop
          have hexit := ascends_exit (by omega) hout hrest
          exact ⟨lt_target_branchEntries (.alternate l r) hbody,
            ihl hr.1 (by omega) (hone _ _ (Nat.sub_le _ _))
              (ihr hr.2 (by omega) (hone _ _ (Nat.le_refl _)) hexit)⟩
  | star | plus => exact hr.elim
  | optional r ih =>
      rw [blockSize] at hstop
      have hpos := r.blockSize_pos false
      have hexit := ascends_exit (by omega) hout hrest
      have hrow : ∀ tr ∈ [Transition.epsilon (base + 1), .epsilon (stop - 1)],
          base < tr.target :=
        List.forall_mem_cons.mpr ⟨Nat.lt_succ_self base, hone (base + 1) _ (by omega)⟩
      exact ⟨hrow, ih hr (by omega) (hone _ _ (Nat.le_refl _)) hexit⟩

end Regex

namespace Automaton

variable {flags : Flags} {p q : Nat} {r : Regex}

theorem Edge.lt_of_loopFree (hr : r.LoopFree) (h : (ofRegex r flags).Edge p q) : p < q := by
  obtain ⟨tr, htr, rfl⟩ := h
  have hrows : Regex.Ascends 0 (ofRegex r flags).states.toList :=
    Regex.ascends_block hr (Nat.zero_add _).symm (List.forall_mem_nil _) trivial
  unfold out at htr
  cases hrow : (ofRegex r flags).states[p]? with
  | none =>
      rw [hrow] at htr
      exact absurd htr List.not_mem_nil
  | some row =>
      rw [hrow, Option.getD_some] at htr
      rw [← Array.getElem?_toList] at hrow
      have hlt := hrows.lt_target hrow tr htr
      rwa [Nat.zero_add] at hlt

/-- The automaton of an expression without loops has no cycle. -/
theorem acyclic_of_loopFree (hr : r.LoopFree) (q : Nat) :
    ¬ Relation.TransGen (ofRegex r flags).Edge q q := by
  have hlt : ∀ {p q}, Relation.TransGen (ofRegex r flags).Edge p q → p < q := by
    intro p q h
    induction h with
    | single hedge => exact hedge.lt_of_loopFree hr
    | tail _ hedge ih => exact Nat.lt_trans ih (hedge.lt_of_loopFree hr)
  exact fun h => Nat.lt_irrefl q (hlt h)

theorem nodup_out_ofRegex (r : Regex) (flags : Flags) (q : Nat) :
    ((ofRegex r flags).out q).Nodup := by
  have hrows : ∀ row ∈ (ofRegex r flags).states.toList, row.Nodup :=
    Regex.nodup_block (Nat.zero_add _).symm List.nodup_nil (List.forall_mem_nil _)
  unfold out
  cases hrow : (ofRegex r flags).states[q]? with
  | none => exact List.nodup_nil
  | some row => exact hrows row (Array.mem_toList_iff.mpr (Array.mem_of_getElem? hrow))

/-- The classes of the automaton are canonical. -/
theorem canonical_of_mem_ofRegex {k : SymbolClass} {t : Nat} (hr : r.Proper)
    (h : .symbol (.among k) t ∈ (ofRegex r flags).out q) :
    SymbolRange.Canonical k.ranges.toList := by
  obtain ⟨s, hs, heq⟩ := exists_set_of_mem_ofRegex h
  have hproper := hr.set hs
  cases s with
  | single c => cases heq
  | any => cases heq
  | among k' =>
      cases heq
      exact SymbolRange.canonical_normalize hproper

end Automaton

/-! ## Well-formed assemblies -/

namespace Assembly

/-- The states are numbered by their places and mention only each other.  One of them is
accepting, and it is left by no transition.  Every state lies between the start and the
accepting one.  No silent transition is there twice, and classes are canonical. -/
structure WellWired (assembly : Assembly) : Prop where
  id_eq : ∀ (q : Nat) (draft : Draft), assembly.drafts[q]? = some draft → draft.id = q
  start_lt : assembly.start < assembly.drafts.size
  accept_lt : assembly.accept < assembly.drafts.size
  target_lt : ∀ (q : Nat) (draft : Draft), assembly.drafts[q]? = some draft →
    ∀ tr ∈ draft.transitions, tr.target < assembly.drafts.size
  accepting_iff : ∀ (q : Nat) (draft : Draft), assembly.drafts[q]? = some draft →
    (draft.accepting = true ↔ q = assembly.accept)
  accept_stuck : ∀ draft : Draft, assembly.drafts[assembly.accept]? = some draft →
    draft.transitions = []
  between : ∀ q, q < assembly.drafts.size →
    assembly.automaton.Between assembly.start q assembly.accept
  epsilon_once : ∀ (q : Nat) (draft : Draft), assembly.drafts[q]? = some draft →
    ∀ t, draft.transitions.count (.epsilon t) ≤ 1
  canonical : ∀ (q : Nat) (draft : Draft), assembly.drafts[q]? = some draft →
    ∀ (k : SymbolClass) (t : Nat), .symbol (.among k) t ∈ draft.transitions →
      SymbolRange.Canonical k.ranges.toList

/-- A state that is written out is the state of the automaton at its place. -/
theorem draft_of_getElem? {a : Automaton} {q : Nat} {draft : Draft}
    (h : (ofAutomaton a).drafts[q]? = some draft) : draft = ⟨q, q == a.accept, a.out q⟩ := by
  rw [getElem?_drafts_ofAutomaton] at h
  obtain ⟨row, hrow, rfl⟩ := Option.map_eq_some_iff.mp h
  rw [Automaton.out, hrow, Option.getD_some]

theorem size_drafts_ofAutomaton (a : Automaton) : (ofAutomaton a).drafts.size = a.size :=
  Array.size_mapIdx

/-- **Every automaton that is put together is well formed**, and it is the one that is
written down at once.  If its expression has no star and no plus, then it has no cycle. -/
theorem wellWired_ofRegex (r : Regex) (hr : r.Proper) (flags : Flags) :
    (ofRegex r flags).automaton = Automaton.ofRegex r flags ∧
      (ofRegex r flags).WellWired ∧
      (r.LoopFree → ∀ q, ¬ Relation.TransGen (ofRegex r flags).automaton.Edge q q) := by
  have hwell := Automaton.wellFormed_ofRegex r flags
  have hsize := size_drafts_ofAutomaton (Automaton.ofRegex r flags)
  rw [ofRegex_eq, automaton_ofAutomaton]
  refine ⟨rfl, ?_, fun hloop => Automaton.acyclic_of_loopFree hloop⟩
  constructor
  case id_eq =>
    intro q draft h
    rw [draft_of_getElem? h]
  case start_lt =>
    rw [hsize]
    exact hwell.start_lt
  case accept_lt =>
    rw [hsize]
    exact hwell.accept_lt
  case target_lt =>
    intro q draft h
    rw [draft_of_getElem? h, hsize]
    exact hwell.target_lt q
  case accepting_iff =>
    intro q draft h
    rw [draft_of_getElem? h]
    exact beq_iff_eq
  case accept_stuck =>
    intro draft h
    rw [draft_of_getElem? h]
    exact Automaton.out_accept_ofRegex r flags
  case between =>
    intro q hq
    rw [automaton_ofAutomaton]
    rw [hsize] at hq
    exact Automaton.between_ofRegex r flags hq
  case epsilon_once =>
    intro q draft h t
    rw [draft_of_getElem? h]
    exact List.nodup_iff_count_le_one.mp (Automaton.nodup_out_ofRegex r flags q) _
  case canonical =>
    intro q draft h k t hmem
    rw [draft_of_getElem? h] at hmem
    exact Automaton.canonical_of_mem_ofRegex hr hmem

/-- The expression of `([c-da-b]|^)?`, whose class is out of order. -/
def unorderedClass : Regex :=
  .optional (.alternate (.symbol (.among ⟨false, #[⟨0x63, 0x64⟩, ⟨0x61, 0x62⟩]⟩)) (.anchor .start))

theorem unorderedClass_wellWired :
    unorderedClass.Proper ∧ unorderedClass.LoopFree ∧
      (ofRegex unorderedClass {}).WellWired ∧
      ∀ q, ¬ Relation.TransGen (ofRegex unorderedClass {}).automaton.Edge q q := by
  have hproper : unorderedClass.Proper := by decide
  have hloop : unorderedClass.LoopFree := ⟨trivial, trivial⟩
  obtain ⟨_, hwired, hacyclic⟩ := wellWired_ofRegex unorderedClass hproper {}
  exact ⟨hproper, hloop, hwired, hacyclic hloop⟩

end Assembly

end RegexEngine
