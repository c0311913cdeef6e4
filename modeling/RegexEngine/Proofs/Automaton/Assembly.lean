/-
# `Assembly.ofRegex` — wiring gives the automaton that is written down at once

`Regex.block` writes the rows of a block down with the transitions out of its exit as
given.  Wiring adds these transitions later, one by one, to an exit that has none.  So
what there is to know of a block is that the row of its exit is one of its rows, and the
only one that depends on what surrounds the block (`Regex.openAt_block`).  Adding a
transition to this row gives the block with one more transition out of its exit
(`Arena.makes_addTransition_open`), because in this construction no transition is there
already.

A computation is described by the rows that it starts from and the rows that it leaves
behind (`Arena.Makes`); the numbers of the states are their places.  Building an
expression leaves its block behind the rows that were there (`Arena.Builds`), which is
one lemma for every kind of node.

Chains need an invariant each.  What a concatenation has built so far is the fragment of
the operands so far, nested to the left, and how the chain is nested leaves no trace
(`Regex.SameLayout`).  The branches of an alternation are laid out one behind the other
with open exits, and joining them closes the exits in order, while the row of the entry
grows (`Arena.makes_joinBranches`).
-/
import RegexEngine.Automaton.Arena
import RegexEngine.Proofs.Automaton.Blocks
import RegexEngine.Proofs.Regex.Nesting

namespace RegexEngine

/-! ## Chains -/

namespace Regex

/-- The operands of the chain of an operator that an expression is, in order. -/
def operands : Operator → Regex → List Regex
  | .concat => factors
  | .alternate => branches

theorem operands_of_some {op : Operator} {r : Regex} {p : Regex × Regex}
    (h : operands? op r = some p) : operands op r = operands op p.1 ++ operands op p.2 := by
  unfold operands? at h
  split at h
  · cases h
    exact factors_concat _ _
  · cases h
    exact branches_alternate _ _
  · cases h

theorem operands_of_none {op : Operator} {r : Regex} (h : operands? op r = none) :
    operands op r = [r] := by
  cases op with
  | concat =>
      cases r with
      | concat => cases h
      | _ => rfl
  | alternate =>
      cases r with
      | alternate => cases h
      | _ => rfl

/-- The loop lists the operands of the expressions on its stack. -/
theorem flattenChain_eq (op : Operator) (stack : List Regex) :
    flattenChain op stack = stack.flatMap (operands op) := by
  fun_induction flattenChain op stack with
  | case1 => rfl
  | case2 r stack p h ih =>
      rw [ih, List.flatMap_cons, List.flatMap_cons, List.flatMap_cons, operands_of_some h,
        List.append_assoc]
  | case3 r stack h ih =>
      rw [ih, List.flatMap_cons, operands_of_none h]
      rfl

theorem nodes_le_totalNodes {r : Regex} {rs : List Regex} (h : r ∈ rs) :
    r.nodes ≤ totalNodes rs := by
  induction rs with
  | nil => cases h
  | cons s rs ih =>
      rw [totalNodes_cons]
      rcases List.mem_cons.mp h with rfl | h
      · exact Nat.le_add_right _ _
      · exact Nat.le_add_left_of_le (ih h)

/-- The factors of an expression, joined again from the left, are the expression up to the
nesting of the chain. -/
theorem exists_regroups_factors (r : Regex) :
    ∃ first rest, r.factors = first :: rest ∧ (rest.foldl .concat first).Regroups r := by
  have hfold : ∀ r p : Regex, (r.factors.foldl .concat p).Regroups (.concat p r) := by
    intro r
    induction r with
    | concat l r ihl ihr =>
        intro p
        rw [factors_concat, List.foldl_append]
        exact (ihr _).trans (.trans (.concat (ihl p) (.refl r)) (.concat_assoc p l r))
    | _ => exact fun p => .refl _
  induction r with
  | concat l r ihl _ =>
      obtain ⟨first, rest, hfactors, hl⟩ := ihl
      refine ⟨first, rest ++ r.factors, ?_, ?_⟩
      · rw [factors_concat, hfactors, List.cons_append]
      · rw [List.foldl_append]
        exact (hfold r _).trans (.concat hl (.refl r))
  | _ => exact ⟨_, [], rfl, .refl _⟩

/-! ## The rows of a block -/

variable {base stop : Nat}

/-- What follows a block stays behind it. -/
theorem block_append (flags : Flags) (asBranch : Bool) (base stop : Nat) (out : List Transition)
    (following more : List (List Transition)) (r : Regex) :
    r.block flags asBranch base stop out (following ++ more) =
      r.block flags asBranch base stop out following ++ more := by
  induction r generalizing asBranch base stop out following with
  | empty | symbol | anchor => rfl
  | concat l r ihl ihr => simp only [block, ihl, ihr]
  | alternate l r ihl ihr =>
      cases asBranch <;>
        simp only [block, ihl, ihr, ← List.cons_append, if_true, if_false, Bool.false_eq_true]
  | star r ih | plus r ih | optional r ih => simp only [block, ih, ← List.cons_append]

/-- Among rows that are numbered from `base` on, the row of the exit is one that is still
open; the others are fixed. -/
def OpenAt (base exit : Nat) (rows : List Transition → List (List Transition)) : Prop :=
  ∃ before after, base + before.length = exit ∧ ∀ out, rows out = before ++ out :: after

theorem openAt_first (base : Nat) (following : List (List Transition)) :
    OpenAt base base fun out => out :: following :=
  ⟨[], following, rfl, fun _ => rfl⟩

variable {exit : Nat} {rows : List Transition → List (List Transition)}

theorem OpenAt.behind (front : List (List Transition))
    (h : OpenAt (base + front.length) exit rows) :
    OpenAt base exit fun out => front ++ rows out := by
  obtain ⟨before, after, hexit, hrows⟩ := h
  refine ⟨front ++ before, after, ?_, ?_⟩
  · rw [List.length_append, ← Nat.add_assoc, hexit]
  · intro out
    show front ++ rows out = front ++ before ++ out :: after
    rw [hrows, List.append_assoc]

theorem OpenAt.behind_block {flags : Flags} {asBranch : Bool} {base' stop' : Nat}
    {out : List Transition} {r : Regex} (h : OpenAt (base + r.blockSize asBranch) exit rows) :
    OpenAt base exit fun out' => r.block flags asBranch base' stop' out (rows out') := by
  obtain ⟨before, after, hexit, hrows⟩ := h
  refine ⟨r.block flags asBranch base' stop' out before, after, ?_, ?_⟩
  · rw [length_block]
    omega
  · intro out'
    show r.block flags asBranch base' stop' out (rows out') = _
    rw [hrows, block_append]

/-- The row of its exit is open in a block. -/
theorem openAt_block (flags : Flags) (r : Regex) (following : List (List Transition))
    (hstop : stop = base + r.blockSize false) :
    OpenAt base (r.blockExit base stop) fun out =>
      r.block flags false base stop out following := by
  induction r generalizing base stop with
  | empty => exact openAt_first base following
  | symbol | anchor | star => exact .behind [_] (openAt_first (base + 1) _)
  | concat l r _ ihr =>
      rw [blockSize] at hstop
      have hsplit : stop - r.blockSize false = base + l.blockSize false := by omega
      refine .behind_block (r := l) ?_
      rw [← hsplit]
      exact ihr (by omega)
  | alternate l r =>
      simp only [blockSize, Bool.false_eq_true, if_false] at hstop
      have hexit : stop - 1 = base + 1 + l.blockSize true + r.blockSize true := by omega
      simp only [blockExit, block]
      rw [hexit]
      exact .behind [_] (.behind_block (.behind_block (openAt_first _ _)))
  | plus r =>
      rw [blockSize] at hstop
      have hexit : stop - 1 = base + r.blockSize false := by omega
      simp only [blockExit, block]
      rw [hexit]
      exact .behind_block (openAt_first _ _)
  | optional r =>
      rw [blockSize] at hstop
      have hexit : stop - 1 = base + 1 + r.blockSize false := by omega
      simp only [blockExit, block]
      rw [hexit]
      exact .behind [_] (.behind_block (openAt_first _ _))

end Regex

/-! ## Branches in a row -/

namespace Regex

variable {flags : Flags} {out : List Transition} {following : List (List Transition)}
  {base stop : Nat}

/-- The number of states of some blocks. -/
def branchesSize (rs : List Regex) : Nat := rs.foldr (fun r size => r.blockSize false + size) 0

/-- The fragments of some blocks that follow each other from `base` on. -/
def branchFragments (base : Nat) : List Regex → List Fragment
  | [] => []
  | r :: rest =>
      ⟨base, r.blockExit base (base + r.blockSize false)⟩ ::
        branchFragments (base + r.blockSize false) rest

/-- Some blocks that follow each other from `base` on, with the same transitions out of
every exit, in front of the rows that follow. -/
def branchBlocks (flags : Flags) (out : List Transition) (following : List (List Transition))
    (base : Nat) : List Regex → List (List Transition)
  | [] => following
  | r :: rest =>
      r.block flags false base (base + r.blockSize false) out
        (branchBlocks flags out following (base + r.blockSize false) rest)

theorem branchesSize_append (rs ss : List Regex) :
    branchesSize (rs ++ ss) = branchesSize rs + branchesSize ss := by
  induction rs with
  | nil => exact (Nat.zero_add _).symm
  | cons r rs ih =>
      show r.blockSize false + branchesSize (rs ++ ss) =
        r.blockSize false + branchesSize rs + branchesSize ss
      rw [ih, Nat.add_assoc]

theorem branchFragments_append (base : Nat) (rs ss : List Regex) :
    branchFragments base (rs ++ ss) =
      branchFragments base rs ++ branchFragments (base + branchesSize rs) ss := by
  induction rs generalizing base with
  | nil => rfl
  | cons r rs ih =>
      show _ :: branchFragments (base + r.blockSize false) (rs ++ ss) = _
      rw [ih, Nat.add_assoc]
      rfl

theorem branchBlocks_append (base : Nat) (rs ss : List Regex) :
    branchBlocks flags out following base (rs ++ ss) =
      branchBlocks flags out (branchBlocks flags out following (base + branchesSize rs) ss)
        base rs := by
  induction rs generalizing base with
  | nil => rfl
  | cons r rs ih =>
      show r.block flags false base _ out (branchBlocks flags out following _ (rs ++ ss)) = _
      rw [ih, Nat.add_assoc]
      rfl

theorem length_branchBlocks (rs : List Regex) :
    (branchBlocks flags out following base rs).length = branchesSize rs + following.length := by
  induction rs generalizing base with
  | nil => exact (Nat.zero_add _).symm
  | cons r rs ih =>
      rw [branchBlocks, length_block, ih, ← Nat.add_assoc]
      rfl

/-- What follows the blocks stays behind them. -/
theorem branchBlocks_following (more : List (List Transition)) (rs : List Regex) :
    branchBlocks flags out (following ++ more) base rs =
      branchBlocks flags out following base rs ++ more := by
  induction rs generalizing base with
  | nil => rfl
  | cons r rs ih => rw [branchBlocks, branchBlocks, ih, block_append]

/-- An alternation as a branch is the blocks of its branches. -/
theorem branches_layout (flags : Flags) (r : Regex) :
    r.blockSize true = branchesSize r.branches ∧
    (∀ base stop following, stop = base + r.blockSize true →
      r.branchEntries base stop following =
        (branchFragments base r.branches).map (.epsilon ·.entry) ++ following) ∧
    ∀ base stop out following, stop = base + r.blockSize true →
      r.block flags true base stop out following =
        branchBlocks flags out following base r.branches := by
  induction r with
  | alternate l r ihl ihr =>
      obtain ⟨hlsize, hlentries, hlblocks⟩ := ihl
      obtain ⟨hrsize, hrentries, hrblocks⟩ := ihr
      have hsize : (alternate l r).blockSize true =
          branchesSize l.branches + branchesSize r.branches := by
        rw [blockSize, if_pos rfl, Nat.zero_add, hlsize, hrsize]
      rw [branches_alternate]
      refine ⟨by rw [hsize, branchesSize_append], ?_, ?_⟩
      · intro base stop following hstop
        have hmiddle : stop - r.blockSize true = base + branchesSize l.branches := by omega
        rw [branchEntries, hmiddle, hlentries _ _ _ (by omega), hrentries _ _ _ (by omega),
          branchFragments_append, List.map_append, List.append_assoc]
      · intro base stop out following hstop
        have hmiddle : stop - r.blockSize true = base + branchesSize l.branches := by omega
        rw [block, if_pos rfl, hmiddle, hlblocks _ _ _ _ (by omega), hrblocks _ _ _ _ (by omega),
          branchBlocks_append]
  | _ =>
      refine ⟨rfl, fun base stop following _ => rfl, ?_⟩
      rintro base stop out following rfl
      rfl

end Regex

/-! ## Computations on rows -/

namespace Arena

/-- The arena whose states have the transitions of the rows. -/
def ofRows (rows : List (List Transition)) : Arena :=
  ⟨(rows.mapIdx fun q row => ⟨q, false, row⟩).toArray⟩

/-- From the states of some rows, the computation gives a result and the states of other
rows. -/
def Makes {α : Type} (m : StateM Arena α) (rows : List (List Transition)) (a : α)
    (rows' : List (List Transition)) : Prop :=
  m.run (ofRows rows) = (a, ofRows rows')

variable {α β : Type} {m : StateM Arena α} {a : α} {q : Nat} {tr : Transition}
  {row : List Transition} {rows rows' rows'' front back : List (List Transition)}

theorem makes_pure (a : α) (rows : List (List Transition)) : Makes (pure a) rows a rows := rfl

theorem Makes.bind {f : α → StateM Arena β} {b : β} (hm : Makes m rows a rows')
    (hf : Makes (f a) rows' b rows'') : Makes (m >>= f) rows b rows'' := by
  rw [Makes, StateT.run_bind, hm]
  exact hf

theorem makes_createState (hq : front.length = q) :
    Makes createState front q (front ++ [[]]) := by
  have hsize : (ofRows front).drafts.size = q := by simp [ofRows, hq]
  show ((ofRows front).drafts.size, Arena.mk ((ofRows front).drafts.push _)) = _
  rw [hsize, ofRows, ofRows, List.mapIdx_concat, List.push_toArray, hq]

/-- The second of two states that are made in a row. -/
theorem makes_createState_second (hq : front.length = q) :
    Makes createState (front ++ [[]]) (q + 1) (front ++ [[], []]) := by
  have hlength : (front ++ [[]]).length = q + 1 := by
    rw [List.length_append, hq, List.length_singleton]
  have h := makes_createState hlength
  rwa [List.append_assoc] at h

theorem makes_addTransition (hq : front.length = q) :
    Makes (addTransition q tr) (front ++ row :: back) ()
      (front ++ extendRow tr row :: back) := by
  have hlength : (front.mapIdx fun q row => (⟨q, false, row⟩ : Draft)).length = q := by
    rw [List.length_mapIdx, hq]
  have hmodify : ∀ (f : Draft → Draft) (xs ys : List Draft) (y : Draft),
      (xs ++ y :: ys).modify xs.length f = xs ++ f y :: ys := fun f xs ys y =>
    List.modifyTailIdx_add (List.modifyHead f) 0 xs (y :: ys)
  show ((), Arena.mk ((ofRows (front ++ row :: back)).drafts.modify q _)) = _
  simp only [ofRows, List.mapIdx_append, List.mapIdx_cons, List.modify_toArray]
  rw [← hlength, hmodify]

/-- A transition that is new to the open row is put at its end. -/
theorem makes_addTransition_open {base exit : Nat} {out : List Transition}
    {block : List Transition → List (List Transition)} (hopen : Regex.OpenAt base exit block)
    (hbase : front.length = base) (hnew : tr ∉ out) :
    Makes (addTransition exit tr) (front ++ block out) () (front ++ block (out ++ [tr])) := by
  obtain ⟨before, after, hexit, hrows⟩ := hopen
  have hextend : extendRow tr out = out ++ [tr] := by
    rw [extendRow, if_neg]
    rw [Bool.and_eq_true, List.contains_iff_mem]
    exact fun h => hnew h.2
  rw [hrows, hrows, ← List.append_assoc, ← List.append_assoc, ← hextend]
  refine makes_addTransition ?_
  rw [List.length_append, hbase, hexit]

/-! ## Fragments -/

variable {flags : Flags} {l r : Regex} {base stop : Nat}

/-- Building the fragment of an expression adds its block, with an exit that has no
transitions yet. -/
def Builds (flags : Flags) (r : Regex) : Prop :=
  ∀ (front : List (List Transition)) (base stop : Nat), front.length = base →
    stop = base + r.blockSize false →
    Makes (buildFragment flags r) front ⟨base, r.blockExit base stop⟩
      (front ++ r.block flags false base stop [] [])

theorem builds_empty : Builds flags .empty := by
  intro front base stop hbase _
  rw [buildFragment]
  exact (makes_createState hbase).bind (makes_pure _ _)

theorem makes_buildStep (transition : Nat → Transition) (hbase : front.length = base) :
    Makes (buildStep transition) front ⟨base, base + 1⟩
      (front ++ [[transition (base + 1)], []]) := by
  exact (makes_createState hbase).bind ((makes_createState_second hbase).bind
    ((makes_addTransition_open (Regex.openAt_first base [[]]) hbase List.not_mem_nil).bind
      (makes_pure _ _)))

theorem builds_symbol (s : SymbolSet) : Builds flags (.symbol s) := by
  intro front base stop hbase _
  rw [buildFragment]
  exact makes_buildStep _ hbase

theorem builds_anchor (a : Anchor) : Builds flags (.anchor a) := by
  intro front base stop hbase _
  rw [buildFragment]
  exact makes_buildStep _ hbase

theorem makes_addEpsilon_open {base exit : Nat} {out : List Transition}
    {block : List Transition → List (List Transition)} (target : Nat)
    (hopen : Regex.OpenAt base exit block) (hbase : front.length = base)
    (hnew : .epsilon target ∉ out) :
    Makes (addEpsilon exit target) (front ++ block out) ()
      (front ++ block (out ++ [.epsilon target])) :=
  makes_addTransition_open hopen hbase hnew

theorem epsilon_not_mem_singleton {p q : Nat} (h : p ≠ q) :
    Transition.epsilon p ∉ [Transition.epsilon q] := fun hmem =>
  h (Transition.epsilon.inj (List.mem_singleton.mp hmem))

theorem Builds.star (h : Builds flags r) : Builds flags (.star r) := by
  intro front base stop hbase hstop
  rw [Regex.blockSize] at hstop
  have hbody : stop = base + 2 + r.blockSize false := by omega
  have hinner := h (front ++ [[], []]) (base + 2) stop (by simp [hbase]) hbody
  rw [List.append_assoc] at hinner
  have hentry : Regex.OpenAt base base fun out =>
      out :: [] :: r.block flags false (base + 2) stop [] [] := Regex.openAt_first base _
  have hback : Regex.OpenAt base (r.blockExit (base + 2) stop) fun out =>
      [.epsilon (base + 2), .epsilon (base + 1)] :: [] ::
        r.block flags false (base + 2) stop out [] :=
    .behind [_] (.behind [_] (Regex.openAt_block flags r [] hbody))
  have hskip : base + 1 ≠ base + 2 := by omega
  have hleave : base + 1 ≠ base := by omega
  rw [buildFragment]
  exact (makes_createState hbase).bind ((makes_createState_second hbase).bind (hinner.bind
    ((makes_addTransition_open hentry hbase List.not_mem_nil).bind
    ((makes_addTransition_open hentry hbase (epsilon_not_mem_singleton hskip)).bind
    ((makes_addTransition_open hback hbase List.not_mem_nil).bind
    ((makes_addTransition_open hback hbase (epsilon_not_mem_singleton hleave)).bind
    (makes_pure _ _)))))))

theorem length_append_block (hfront : front.length + r.blockSize false = q) :
    (front ++ r.block flags false base stop [] []).length = q := by
  rwa [List.length_append, Regex.length_block, List.length_nil]

/-- A state that is made behind a block follows it. -/
theorem makes_createState_block (hfront : front.length + r.blockSize false = q) :
    Makes createState (front ++ r.block flags false base stop [] []) q
      (front ++ r.block flags false base stop [] [[]]) := by
  have hlength : (front ++ r.block flags false base stop [] []).length = q :=
    length_append_block hfront
  have h := makes_createState hlength
  rwa [List.append_assoc, ← Regex.block_append] at h

theorem Builds.plus (h : Builds flags r) : Builds flags (.plus r) := by
  intro front base stop hbase hstop
  rw [Regex.blockSize] at hstop
  have hpos := r.blockSize_pos false
  have hbody : stop - 1 = base + r.blockSize false := by omega
  have hinner := h front base (stop - 1) hbase hbody
  have hexit : Makes createState (front ++ r.block flags false base (stop - 1) [] []) (stop - 1)
      (front ++ r.block flags false base (stop - 1) [] [[]]) :=
    makes_createState_block (by omega)
  have hback := Regex.openAt_block flags r [[]] hbody
  have hleave : stop - 1 ≠ base := by omega
  rw [buildFragment]
  exact hinner.bind (hexit.bind
    ((makes_addTransition_open hback hbase List.not_mem_nil).bind
    ((makes_addTransition_open hback hbase (epsilon_not_mem_singleton hleave)).bind
    (makes_pure _ _))))

theorem Builds.optional (h : Builds flags r) : Builds flags (.optional r) := by
  intro front base stop hbase hstop
  rw [Regex.blockSize] at hstop
  have hpos := r.blockSize_pos false
  have hbody : stop - 1 = base + 1 + r.blockSize false := by omega
  have hinner := h (front ++ [[]]) (base + 1) (stop - 1) (by simp [hbase]) hbody
  have hexit : Makes createState (front ++ [[]] ++ r.block flags false (base + 1) (stop - 1) [] [])
      (stop - 1) (front ++ [[]] ++ r.block flags false (base + 1) (stop - 1) [] [[]]) :=
    makes_createState_block (by rw [List.length_append, hbase, List.length_singleton, hbody])
  rw [List.append_assoc front [[]] (r.block flags false (base + 1) (stop - 1) [] [[]])] at hexit
  have hentry : Regex.OpenAt base base fun out =>
      out :: r.block flags false (base + 1) (stop - 1) [] [[]] := Regex.openAt_first base _
  have hback : Regex.OpenAt base (r.blockExit (base + 1) (stop - 1)) fun out =>
      [.epsilon (base + 1), .epsilon (stop - 1)] ::
        r.block flags false (base + 1) (stop - 1) out [[]] :=
    .behind [_] (Regex.openAt_block flags r [[]] hbody)
  have hskip : stop - 1 ≠ base + 1 := by omega
  rw [buildFragment]
  exact (makes_createState hbase).bind (hinner.bind (hexit.bind
    ((makes_addTransition_open hentry hbase List.not_mem_nil).bind
    ((makes_addTransition_open hentry hbase (epsilon_not_mem_singleton hskip)).bind
    ((makes_addTransition_open hback hbase List.not_mem_nil).bind
    (makes_pure _ _))))))

/-! ## Chains of fragments -/

/-- Operands that are built one by one, each wired to the one in front, give the fragment
of the concatenation nested to the left. -/
theorem makes_buildConcat {rs : List Regex} (hrs : ∀ r ∈ rs, Builds flags r) (p : Regex)
    (hbase : front.length = base) (hstop : stop = base + p.blockSize false) {stop' : Nat}
    (hstop' : stop' = base + (rs.foldl .concat p).blockSize false) :
    Makes (buildConcat flags (some ⟨base, p.blockExit base stop⟩) rs)
      (front ++ p.block flags false base stop [] [])
      ⟨base, (rs.foldl .concat p).blockExit base stop'⟩
      (front ++ (rs.foldl .concat p).block flags false base stop' [] []) := by
  induction rs generalizing p stop with
  | nil =>
      obtain rfl : stop = stop' := hstop.trans hstop'.symm
      rw [buildConcat]
      exact makes_pure _ _
  | cons r rest ih =>
      have hlength : (front ++ p.block flags false base stop [] []).length = stop :=
        length_append_block (by rw [hbase, hstop])
      have hr := hrs r List.mem_cons_self _ stop (stop + r.blockSize false) hlength rfl
      rw [List.append_assoc, ← Regex.block_append, List.nil_append] at hr
      have hwire := makes_addEpsilon_open stop
        (Regex.openAt_block flags p (r.block flags false stop (stop + r.blockSize false) [] [])
          hstop) hbase List.not_mem_nil
      have hnext : stop + r.blockSize false = base + (Regex.concat p r).blockSize false := by
        rw [hstop, Regex.blockSize, Nat.add_assoc]
      have hrest := ih (fun r' hr' => hrs r' (List.mem_cons_of_mem r hr')) (.concat p r) hnext
        hstop'
      simp only [Regex.block, Regex.blockExit, Nat.add_sub_cancel] at hrest
      rw [buildConcat]
      exact hr.bind (hwire.bind hrest)

theorem builds_concat (h : ∀ f ∈ (Regex.concat l r).factors, Builds flags f) :
    Builds flags (.concat l r) := by
  intro front base stop hbase hstop
  obtain ⟨first, rest, hfactors, hregroups⟩ := Regex.exists_regroups_factors (.concat l r)
  rw [hfactors] at h
  have hlayout := hregroups.sameLayout
  have hfirst := h first List.mem_cons_self front base (base + first.blockSize false) hbase rfl
  have hwhole : stop = base + (rest.foldl .concat first).blockSize false := by
    rw [hlayout.blockSize, hstop]
  have hrest := makes_buildConcat (fun f hf => h f (List.mem_cons_of_mem first hf)) first hbase
    rfl hwhole
  rw [hlayout.blockExit, hlayout.block] at hrest
  rw [buildFragment, Regex.flattenChain_eq, List.flatMap_singleton, Regex.operands, hfactors,
    buildConcat]
  exact hfirst.bind hrest

theorem makes_buildBranches {rs : List Regex} (hrs : ∀ r ∈ rs, Builds flags r)
    (hbase : front.length = base) :
    Makes (buildBranches flags rs) front (Regex.branchFragments base rs)
      (front ++ Regex.branchBlocks flags [] [] base rs) := by
  induction rs generalizing front base with
  | nil =>
      rw [buildBranches, Regex.branchBlocks, List.append_nil]
      exact makes_pure _ _
  | cons r rest ih =>
      have hr := hrs r List.mem_cons_self front base _ hbase rfl
      have hlength : (front ++ r.block flags false base (base + r.blockSize false) [] []).length =
          base + r.blockSize false :=
        length_append_block (by rw [hbase])
      have hrest := ih (fun r' hr' => hrs r' (List.mem_cons_of_mem r hr')) hlength
      rw [List.append_assoc, ← Regex.block_append, List.nil_append] at hrest
      rw [buildBranches]
      exact hr.bind (hrest.bind (makes_pure _ _))

/-- Joining writes the entry's row, and opens all branches to the exit. -/
theorem makes_joinBranches {entry exit : Nat} {row : List Transition}
    {done following : List (List Transition)} {rs : List Regex} (hentry : front.length = entry)
    (hbase : base = entry + 1 + done.length) (hrow : ∀ tr ∈ row, tr.target < base) :
    Makes (joinBranches entry exit (Regex.branchFragments base rs))
      (front ++ row :: (done ++ Regex.branchBlocks flags [] following base rs)) ()
      (front ++ (row ++ (Regex.branchFragments base rs).map (.epsilon ·.entry)) ::
        (done ++ Regex.branchBlocks flags [.epsilon exit] following base rs)) := by
  induction rs generalizing row done base with
  | nil =>
      rw [Regex.branchFragments, joinBranches, List.map_nil, List.append_nil]
      exact makes_pure _ _
  | cons r rest ih =>
      have hfresh : Transition.epsilon base ∉ row := fun h => Nat.lt_irrefl base (hrow _ h)
      have henter := makes_addTransition_open (Regex.openAt_first entry (done ++ Regex.branchBlocks
        flags [] following base (r :: rest))) hentry hfresh
      have hopen : Regex.OpenAt entry (r.blockExit base (base + r.blockSize false)) fun out =>
          [row ++ [.epsilon base]] ++ (done ++ r.block flags false base
            (base + r.blockSize false) out
            (Regex.branchBlocks flags [] following (base + r.blockSize false) rest)) := by
        refine .behind [_] (.behind done ?_)
        have hblock := Regex.openAt_block flags r
          (Regex.branchBlocks flags [] following (base + r.blockSize false) rest)
          (Eq.refl (base + r.blockSize false))
        rwa [hbase] at hblock ⊢
      have hleave := makes_addEpsilon_open exit hopen hentry List.not_mem_nil
      have hrow' : ∀ tr ∈ row ++ [.epsilon base], tr.target < base + r.blockSize false := by
        have hpos := r.blockSize_pos false
        intro tr htr
        rcases List.mem_append.mp htr with htr | htr
        · exact Nat.lt_add_right _ (hrow tr htr)
        · rw [List.mem_singleton.mp htr]
          exact Nat.lt_add_of_pos_right hpos
      have hdone : base + r.blockSize false = entry + 1 + (done ++ r.block flags false base
          (base + r.blockSize false) [.epsilon exit] []).length := by
        rw [List.length_append, Regex.length_block, List.length_nil]
        omega
      have hrest := ih hdone hrow'
      rw [List.append_assoc done, List.append_assoc done, ← Regex.block_append,
        ← Regex.block_append, List.nil_append, List.nil_append, List.append_assoc row] at hrest
      rw [Regex.branchFragments, joinBranches]
      exact henter.bind (hleave.bind hrest)

theorem builds_alternate (h : ∀ f ∈ (Regex.alternate l r).branches, Builds flags f) :
    Builds flags (.alternate l r) := by
  intro front base stop hbase hstop
  obtain ⟨hsize, hentries, hblocks⟩ := Regex.branches_layout flags (.alternate l r)
  have hbody := Regex.alternate_body hstop
  have hfront : (front ++ [[]]).length = base + 1 := by
    rw [List.length_append, hbase, List.length_singleton]
  have hbranches := makes_buildBranches h hfront
  have hlength : (front ++ [[]] ++ Regex.branchBlocks flags [] [] (base + 1)
      (Regex.alternate l r).branches).length = stop - 1 := by
    rw [List.length_append, hfront, Regex.length_branchBlocks, hbody, hsize]
    rfl
  have hexit := makes_createState hlength
  rw [List.append_assoc (front ++ [[]]), ← Regex.branchBlocks_following, List.nil_append,
    List.append_assoc front [[]] (Regex.branchBlocks flags [] [[]] (base + 1)
      (Regex.alternate l r).branches)] at hexit
  have hjoin : Makes (joinBranches base (stop - 1)
        (Regex.branchFragments (base + 1) (Regex.alternate l r).branches))
      (front ++ [] :: ([] ++ Regex.branchBlocks flags [] [[]] (base + 1)
        (Regex.alternate l r).branches)) ()
      (front ++ ([] ++ (Regex.branchFragments (base + 1) (Regex.alternate l r).branches).map
        (.epsilon ·.entry)) :: ([] ++ Regex.branchBlocks flags [.epsilon (stop - 1)] [[]] (base + 1)
          (Regex.alternate l r).branches)) :=
    makes_joinBranches hbase rfl (List.forall_mem_nil _)
  have hblock : (Regex.alternate l r).block flags false base stop [] [] =
      (Regex.branchFragments (base + 1) (Regex.alternate l r).branches).map (.epsilon ·.entry) ::
        Regex.branchBlocks flags [.epsilon (stop - 1)] [[]] (base + 1)
          (Regex.alternate l r).branches := by
    rw [← hblocks _ _ _ _ hbody, ← List.append_nil (List.map _ _), ← hentries _ _ _ hbody]
    rfl
  rw [hblock, buildFragment, Regex.flattenChain_eq, List.flatMap_singleton]
  exact (makes_createState hbase).bind (hbranches.bind (hexit.bind (hjoin.bind (makes_pure _ _))))

/-- Every expression is built as its block. -/
theorem builds (flags : Flags) (r : Regex) : Builds flags r := by
  induction hn : r.nodes using Nat.strongRecOn generalizing r with
  | ind n ih =>
    subst hn
    have hmembers : ∀ rs, Regex.totalNodes rs < r.nodes → ∀ f ∈ rs, Builds flags f := by
      intro rs hrs f hf
      exact ih f.nodes (Nat.lt_of_le_of_lt (Regex.nodes_le_totalNodes hf) hrs) f rfl
    cases r with
    | empty => exact builds_empty
    | symbol s => exact builds_symbol s
    | anchor a => exact builds_anchor a
    | concat l r =>
        have hlt : Regex.totalNodes (Regex.flattenChain .concat [.concat l r]) <
            (Regex.concat l r).nodes := Regex.totalNodes_flattenChain_lt rfl
        rw [Regex.flattenChain_eq, List.flatMap_singleton] at hlt
        exact builds_concat (hmembers _ hlt)
    | alternate l r =>
        have hlt : Regex.totalNodes (Regex.flattenChain .alternate [.alternate l r]) <
            (Regex.alternate l r).nodes := Regex.totalNodes_flattenChain_lt rfl
        rw [Regex.flattenChain_eq, List.flatMap_singleton] at hlt
        exact builds_alternate (hmembers _ hlt)
    | star r => exact (ih r.nodes (Nat.lt_add_of_pos_left Nat.one_pos) r rfl).star
    | plus r => exact (ih r.nodes (Nat.lt_add_of_pos_left Nat.one_pos) r rfl).plus
    | optional r => exact (ih r.nodes (Nat.lt_add_of_pos_left Nat.one_pos) r rfl).optional

end Arena

/-! ## The whole automaton -/

namespace Assembly

/-- What is put together has the start, the accepting state and the flags of the
automaton. -/
theorem run_buildFragment (r : Regex) (flags : Flags) :
    (Arena.buildFragment flags r).run ⟨#[]⟩ =
      (⟨(Automaton.ofRegex r flags).start, (Automaton.ofRegex r flags).accept⟩,
        Arena.ofRows (Automaton.ofRegex r flags).states.toList) :=
  Arena.builds flags r [] 0 (r.blockSize false) rfl (Nat.zero_add _).symm

/-- The states of an automaton written out, each with its number, and the accepting one
marked. -/
def ofAutomaton (a : Automaton) : Assembly where
  drafts := a.states.mapIdx fun q row => ⟨q, q == a.accept, row⟩
  start := a.start
  accept := a.accept
  flags := a.flags

theorem getElem?_drafts_ofAutomaton (a : Automaton) (q : Nat) :
    (ofAutomaton a).drafts[q]? = a.states[q]?.map fun row => ⟨q, q == a.accept, row⟩ :=
  Array.getElem?_mapIdx

theorem automaton_ofAutomaton (a : Automaton) : (ofAutomaton a).automaton = a := by
  have hstates : (ofAutomaton a).drafts.map (·.transitions) = a.states := by
    refine Array.ext_getElem? fun q => ?_
    rw [Array.getElem?_map, getElem?_drafts_ofAutomaton, Option.map_map]
    exact Option.map_id'
  rw [automaton, hstates]
  rfl

/-- **Wiring states one by one gives the automaton that is written down at once.** -/
theorem ofRegex_eq (r : Regex) (flags : Flags) :
    ofRegex r flags = ofAutomaton (Automaton.ofRegex r flags) := by
  unfold ofRegex
  rw [run_buildFragment]
  refine Assembly.ext (Array.ext_getElem? fun q => ?_) rfl rfl rfl
  dsimp only
  rw [getElem?_drafts_ofAutomaton, Array.getElem?_modify, Arena.ofRows, List.getElem?_toArray,
    List.getElem?_mapIdx, Array.getElem?_toList]
  split
  · rename_i hq
    rw [hq, Option.map_map, beq_self_eq_true]
    rfl
  · rename_i hq
    rw [beq_eq_false_iff_ne.mpr (Ne.symm hq)]

end Assembly

end RegexEngine
