/-
# `Regex.callDepth` — how deep a function goes down an expression

Building an automaton and bounding the length of a match both go down an expression chain by
chain: a call collects the operands of the chain that it is given, by a loop with a stack of
its own, and calls itself on each.  So the calls that are open at once are as many as the
expression is deep when a whole chain counts as one node (`Regex.callDepth`), however long
the chain is and however it is nested.

That this is the depth of the calls is shown with functions that have room for a limited
number of calls inside of each other, and fail when there is none for the next.  The builder
with room for `n` calls builds what the builder builds if the expression is no deeper than
`n`, and fails if it is (`Arena.buildWithin_eq`).  The bounds on the length do not look into
everything, so for them the same room is enough (`Regex.minLengthWithin_eq`,
`Regex.maxLengthWithin_eq`).
-/
import Mathlib.Data.Option.NAry
import RegexEngine.Proofs.Automaton.Assembly
import RegexEngine.Regex.Length

namespace RegexEngine

/-! ## Depth -/

namespace Regex

mutual

/-- The number of calls inside of each other when a function calls itself on the operands of a
chain, and on what a quantifier stands behind. -/
def callDepth (r : Regex) : Nat :=
  match r with
  | .empty | .symbol _ | .anchor _ => 1
  | .concat l r => 1 + deepest (flattenChain .concat [.concat l r])
  | .alternate l r => 1 + deepest (flattenChain .alternate [.alternate l r])
  | .star r | .plus r | .optional r => 1 + r.callDepth
termination_by 2 * r.nodes
decreasing_by
  · have : totalNodes (flattenChain .concat [.concat l r]) < (concat l r).nodes :=
      totalNodes_flattenChain_lt rfl
    omega
  · have : totalNodes (flattenChain .alternate [.alternate l r]) < (alternate l r).nodes :=
      totalNodes_flattenChain_lt rfl
    omega
  all_goals
    simp only [nodes]
    omega

/-- The greatest depth of several expressions. -/
def deepest (rs : List Regex) : Nat :=
  match rs with
  | [] => 0
  | r :: rest => max r.callDepth (deepest rest)
termination_by 2 * totalNodes rs + 1
decreasing_by
  · rw [totalNodes_cons]
    omega
  · have := nodes_pos r
    rw [totalNodes_cons]
    omega

end

variable {l r f : Regex} {rs : List Regex} {n : Nat}

@[simp] theorem callDepth_empty : callDepth .empty = 1 := by rw [callDepth]

@[simp] theorem callDepth_symbol (s : SymbolSet) : (symbol s).callDepth = 1 := by rw [callDepth]

@[simp] theorem callDepth_anchor (a : Anchor) : (anchor a).callDepth = 1 := by rw [callDepth]

@[simp] theorem callDepth_apply (q : Quantifier) (r : Regex) :
    (q.apply r).callDepth = 1 + r.callDepth := by
  cases q <;> rw [Quantifier.apply, callDepth]

theorem callDepth_concat (l r : Regex) :
    (concat l r).callDepth = 1 + deepest (concat l r).factors := by
  rw [callDepth, flattenChain_eq, List.flatMap_singleton]
  rfl

theorem callDepth_alternate (l r : Regex) :
    (alternate l r).callDepth = 1 + deepest (alternate l r).branches := by
  rw [callDepth, flattenChain_eq, List.flatMap_singleton]
  rfl

theorem deepest_le_iff : deepest rs ≤ n ↔ ∀ r ∈ rs, r.callDepth ≤ n := by
  induction rs with
  | nil =>
      rw [deepest]
      exact iff_of_true (Nat.zero_le n) (List.forall_mem_nil _)
  | cons r rest ih => rw [deepest, Nat.max_le, ih, List.forall_mem_cons]

theorem callDepth_pos (r : Regex) : 0 < r.callDepth := by
  cases r <;> rw [callDepth] <;> omega

/-- A chain is one call deeper than its factors, and any other expression is its factor. -/
theorem callDepth_le_of_factors (h : ∀ f ∈ r.factors, f.callDepth ≤ n) : r.callDepth ≤ n + 1 := by
  cases r with
  | concat l r =>
      have := deepest_le_iff.mpr h
      rw [callDepth_concat]
      omega
  | _ => exact Nat.le_succ_of_le (h _ (List.mem_singleton_self _))

theorem callDepth_le_of_branches (h : ∀ b ∈ r.branches, b.callDepth ≤ n) :
    r.callDepth ≤ n + 1 := by
  cases r with
  | alternate l r =>
      have := deepest_le_iff.mpr h
      rw [callDepth_alternate]
      omega
  | _ => exact Nat.le_succ_of_le (h _ (List.mem_singleton_self _))

theorem callDepth_factor_le (h : f ∈ r.factors) : f.callDepth ≤ r.callDepth := by
  cases r with
  | concat l r =>
      have := deepest_le_iff.mp (Nat.le_refl _) f h
      rw [callDepth_concat]
      omega
  | _ => rw [List.mem_singleton.mp h]

theorem callDepth_branch_le (h : f ∈ r.branches) : f.callDepth ≤ r.callDepth := by
  cases r with
  | alternate l r =>
      have := deepest_le_iff.mp (Nat.le_refl _) f h
      rw [callDepth_alternate]
      omega
  | _ => rw [List.mem_singleton.mp h]

end Regex

/-! ## Building with limited room -/

namespace Arena

variable {α β : Type}

/-- A computation that needs no room. -/
def roomless (m : StateM Arena α) : StateT Arena Option α := fun arena => some (m arena)

/-- The failure of a computation for which there is no room. -/
def noRoom : StateT Arena Option α := fun _ => none

/-- The fragment of operands in a row, behind the fragment of those in front, when each is
built by the given call. -/
def concatBy (build : Regex → StateT Arena Option Fragment) (front : Option Fragment) :
    List Regex → StateT Arena Option Fragment
  | [] =>
      match front with
      | some fragment => return fragment
      | none => do
          let state ← roomless createState
          return ⟨state, state⟩
  | r :: rest => do
      let fragment ← build r
      match front with
      | none => concatBy build (some fragment) rest
      | some before =>
          roomless (addEpsilon before.exit fragment.entry)
          concatBy build (some ⟨before.entry, fragment.exit⟩) rest

/-- The fragments of branches, when each is built by the given call. -/
def branchesBy (build : Regex → StateT Arena Option Fragment) :
    List Regex → StateT Arena Option (List Fragment)
  | [] => return []
  | r :: rest => do
      let fragment ← build r
      let fragments ← branchesBy build rest
      return fragment :: fragments

/-- The fragment of an expression, if there is room for so many calls inside of each other. -/
def buildWithin (flags : Flags) : Nat → Regex → StateT Arena Option Fragment
  | 0, _ => noRoom
  | _ + 1, .symbol s => roomless (buildStep (.symbol (s.normalize flags)))
  | _ + 1, .anchor a => roomless (buildStep (.assert a))
  | _ + 1, .empty => do
      let state ← roomless createState
      return ⟨state, state⟩
  | room + 1, .concat l r =>
      concatBy (buildWithin flags room) none (Regex.flattenChain .concat [.concat l r])
  | room + 1, .alternate l r => do
      let entry ← roomless createState
      let fragments ← branchesBy (buildWithin flags room)
        (Regex.flattenChain .alternate [.alternate l r])
      let exit ← roomless createState
      roomless (joinBranches entry exit fragments)
      return ⟨entry, exit⟩
  | room + 1, .star r => do
      let entry ← roomless createState
      let exit ← roomless createState
      let inner ← buildWithin flags room r
      roomless (addEpsilon entry inner.entry)
      roomless (addEpsilon entry exit)
      roomless (addEpsilon inner.exit entry)
      roomless (addEpsilon inner.exit exit)
      return ⟨entry, exit⟩
  | room + 1, .plus r => do
      let inner ← buildWithin flags room r
      let exit ← roomless createState
      roomless (addEpsilon inner.exit inner.entry)
      roomless (addEpsilon inner.exit exit)
      return ⟨inner.entry, exit⟩
  | room + 1, .optional r => do
      let entry ← roomless createState
      let inner ← buildWithin flags room r
      let exit ← roomless createState
      roomless (addEpsilon entry inner.entry)
      roomless (addEpsilon entry exit)
      roomless (addEpsilon inner.exit exit)
      return ⟨entry, exit⟩

/-- What a computation gives when it needs room for `depth` calls and there is room for
`room` of them. -/
def needing (depth room : Nat) (m : StateM Arena α) : StateT Arena Option α :=
  if depth ≤ room then roomless m else noRoom

variable {depth depth' room : Nat} {m : StateM Arena α} {f : α → StateM Arena β}

theorem pure_eq_roomless (a : α) : (pure a : StateT Arena Option α) = roomless (pure a) := rfl

theorem roomless_bind (m : StateM Arena α) (f : α → StateM Arena β) :
    (roomless m >>= fun a => roomless (f a)) = roomless (m >>= f) :=
  rfl

theorem roomless_bind_needing :
    (roomless m >>= fun a => needing depth room (f a)) = needing depth room (m >>= f) := by
  unfold needing
  split <;> rfl

/-- Two computations after each other need room for the deeper one. -/
theorem needing_bind :
    (needing depth room m >>= fun a => needing depth' room (f a)) =
      needing (max depth depth') room (m >>= f) := by
  by_cases h : depth ≤ room
  · rw [needing, if_pos h, roomless_bind_needing]
    simp only [needing, Nat.max_le, h, true_and]
  · have hmax : ¬ max depth depth' ≤ room := fun hle => h (Nat.max_le.mp hle).1
    rw [needing, needing, if_neg h, if_neg hmax]
    rfl

theorem needing_zero (room : Nat) (m : StateM Arena α) : needing 0 room m = roomless m :=
  if_pos (Nat.zero_le room)

theorem needing_bind_roomless :
    (needing depth room m >>= fun a => roomless (f a)) = needing depth room (m >>= f) := by
  simp only [← needing_zero room, needing_bind, Nat.max_zero]

theorem needing_succ (m : StateM Arena α) :
    needing (1 + depth) (room + 1) m = needing depth room m := by
  simp only [needing, Nat.add_comm 1 depth, Nat.add_le_add_iff_right]

theorem needing_one (m : StateM Arena α) : needing 1 (room + 1) m = roomless m :=
  if_pos (Nat.le_add_left 1 room)

theorem needing_no_room (h : 0 < depth) (m : StateM Arena α) : needing depth 0 m = noRoom :=
  if_neg (Nat.not_le_of_lt h)

variable {flags : Flags} {build : Regex → StateT Arena Option Fragment}

theorem concatBy_eq (hbuild : ∀ r, build r = needing r.callDepth room (buildFragment flags r))
    (front : Option Fragment) (rs : List Regex) :
    concatBy build front rs = needing (Regex.deepest rs) room (buildConcat flags front rs) := by
  induction rs generalizing front with
  | nil =>
      rw [Regex.deepest, needing_zero]
      cases front <;> rw [buildConcat] <;> rfl
  | cons r rest ih =>
      rw [Regex.deepest, concatBy, hbuild]
      cases front <;> rw [buildConcat] <;>
        simp only [ih, roomless_bind_needing, needing_bind]

theorem branchesBy_eq (hbuild : ∀ r, build r = needing r.callDepth room (buildFragment flags r))
    (rs : List Regex) :
    branchesBy build rs = needing (Regex.deepest rs) room (buildBranches flags rs) := by
  induction rs with
  | nil =>
      rw [Regex.deepest, needing_zero, buildBranches]
      rfl
  | cons r rest ih =>
      rw [Regex.deepest, branchesBy, hbuild, ih, buildBranches]
      simp only [pure_eq_roomless, needing_bind_roomless, needing_bind]

/-- The builder with room for so many calls builds what the builder builds, unless the
expression is deeper. -/
theorem buildWithin_eq (flags : Flags) (room : Nat) (r : Regex) :
    buildWithin flags room r = needing r.callDepth room (buildFragment flags r) := by
  induction room generalizing r with
  | zero => rw [needing_no_room r.callDepth_pos, buildWithin]
  | succ room ih =>
      cases r with
      | symbol s => rw [Regex.callDepth_symbol, needing_one, buildFragment, buildWithin]
      | anchor a => rw [Regex.callDepth_anchor, needing_one, buildFragment, buildWithin]
      | empty =>
          rw [Regex.callDepth_empty, needing_one, buildFragment, buildWithin]
          rfl
      | concat l r =>
          rw [buildWithin, concatBy_eq ih, Regex.callDepth, needing_succ, buildFragment]
      | alternate l r =>
          rw [buildWithin, branchesBy_eq ih, Regex.callDepth, needing_succ, buildFragment]
          simp only [pure_eq_roomless, roomless_bind, needing_bind_roomless,
            roomless_bind_needing]
      | star r | plus r | optional r =>
          rw [buildWithin, ih, Regex.callDepth, needing_succ, buildFragment]
          simp only [pure_eq_roomless, roomless_bind, needing_bind_roomless,
            roomless_bind_needing]

end Arena

/-! ## Bounding the length with limited room -/

namespace Regex

variable {β : Type} {op : Operator} {r : Regex} {rs : List Regex} {room : Nat}

/-- The least length of a match, if there is room for so many calls inside of each other.
Infinity is `none`, and is the least length before the first branch of an alternation. -/
def minLengthWithin : Nat → Regex → Option (Option Nat)
  | 0, _ => none
  | _ + 1, .symbol _ => some (some 1)
  | room + 1, .concat l r =>
      (flattenChain .concat [.concat l r]).foldlM
        (fun total operand => do return total.map₂ (· + ·) (← minLengthWithin room operand))
        (some 0)
  | room + 1, .alternate l r =>
      (flattenChain .alternate [.alternate l r]).foldlM
        (fun least branch => do return least.merge min (← minLengthWithin room branch)) none
  | room + 1, .plus r => minLengthWithin room r
  | _ + 1, .empty | _ + 1, .anchor _ | _ + 1, .star _ | _ + 1, .optional _ => some (some 0)

/-- What the bounds of operands come to; the first operand without a bound ends the loop. -/
def joinBounds (join : Nat → Nat → Nat) (bound : Regex → Option (Option Nat)) (total : Nat) :
    List Regex → Option (Option Nat)
  | [] => return some total
  | r :: rest => do
      match ← bound r with
      | none => return none
      | some n => joinBounds join bound (join total n) rest

/-- The greatest length of a match, if there is room for so many calls inside of each
other. -/
def maxLengthWithin : Nat → Regex → Option (Option Nat)
  | 0, _ => none
  | _ + 1, .symbol _ => some (some 1)
  | room + 1, .concat l r =>
      joinBounds (· + ·) (maxLengthWithin room) 0 (flattenChain .concat [.concat l r])
  | room + 1, .alternate l r =>
      joinBounds max (maxLengthWithin room) 0 (flattenChain .alternate [.alternate l r])
  | room + 1, .star r | room + 1, .plus r => do
      return repeatedLength? (← maxLengthWithin room r)
  | room + 1, .optional r => maxLengthWithin room r
  | _ + 1, .empty | _ + 1, .anchor _ => some (some 0)

/-- The measure of a chain comes from those of its operands by the operation. -/
def Measured (op : Operator) (f : β → β → β) (g : Regex → β) : Prop :=
  ∀ r p, operands? op r = some p → g r = f (g p.1) (g p.2)

theorem Measured.of_concat {f : β → β → β} {g : Regex → β}
    (h : ∀ l r, g (concat l r) = f (g l) (g r)) : Measured .concat f g := by
  intro r p hp
  cases r <;> cases hp
  exact h _ _

theorem Measured.of_alternate {f : β → β → β} {g : Regex → β}
    (h : ∀ l r, g (alternate l r) = f (g l) (g r)) : Measured .alternate f g := by
  intro r p hp
  cases r <;> cases hp
  exact h _ _

/-- What an associative operation comes to along the operands of chains is what it comes to
for the chains. -/
theorem Measured.foldl_flattenChain {f : β → β → β} {g : Regex → β} (h : Measured op f g)
    (hassoc : Std.Associative f) (rs : List Regex) (a : β) :
    (flattenChain op rs).foldl (fun total s => f total (g s)) a =
      rs.foldl (fun total s => f total (g s)) a := by
  fun_induction flattenChain op rs generalizing a with
  | case1 => rfl
  | case2 r stack p hp ih =>
      rw [ih, List.foldl_cons, List.foldl_cons, List.foldl_cons, h r p hp, hassoc.assoc]
  | case3 r stack _ ih => rw [List.foldl_cons, List.foldl_cons, ih]

/-- A loop over operands whose results are there goes to its end. -/
theorem foldlM_eq_some {f : β → β → β} {g : Regex → β} {result : Regex → Option β}
    (h : ∀ s ∈ rs, result s = some (g s)) (a : β) :
    (rs.foldlM (fun total s => do return f total (← result s)) a : Option β) =
      some (rs.foldl (fun total s => f total (g s)) a) := by
  induction rs generalizing a with
  | nil => rfl
  | cons s rest ih =>
      have ⟨hs, hrest⟩ := List.forall_mem_cons.mp h
      rw [List.foldlM_cons, List.foldl_cons, hs]
      exact ih hrest _

theorem foldl_map₂_none (join : Nat → Nat → Nat) (rs : List Regex) :
    rs.foldl (fun total s => Option.map₂ join total s.maxLength?) none = none := by
  induction rs with
  | nil => rfl
  | cons s rest ih => rw [List.foldl_cons, Option.map₂_none_left, ih]

theorem joinBounds_eq_some {join : Nat → Nat → Nat} {bound : Regex → Option (Option Nat)}
    (h : ∀ s ∈ rs, bound s = some s.maxLength?) (total : Nat) :
    joinBounds join bound total rs =
      some (rs.foldl (fun total s => Option.map₂ join total s.maxLength?) (some total)) := by
  induction rs generalizing total with
  | nil => rfl
  | cons s rest ih =>
      have ⟨hs, hrest⟩ := List.forall_mem_cons.mp h
      rw [joinBounds, List.foldl_cons, hs]
      cases s.maxLength? with
      | none => rw [Option.map₂_none_right, foldl_map₂_none]; rfl
      | some n => exact ih hrest _

theorem zero_map₂ {join : Nat → Nat → Nat} (h : ∀ n, join 0 n = n) (bound : Option Nat) :
    Option.map₂ join (some 0) bound = bound := by
  cases bound with
  | none => rfl
  | some n => exact congrArg some (h n)

theorem maxLength?_concat (l r : Regex) :
    (concat l r).maxLength? = Option.map₂ (· + ·) l.maxLength? r.maxLength? := by
  rw [maxLength?]
  cases l.maxLength? <;> cases r.maxLength? <;> rfl

theorem maxLength?_alternate (l r : Regex) :
    (alternate l r).maxLength? = Option.map₂ max l.maxLength? r.maxLength? := by
  rw [maxLength?]
  cases l.maxLength? <;> cases r.maxLength? <;> rfl

/-- A chain that has room leaves room for its operands. -/
theorem callDepth_operand_le (op : Operator) {p : Regex × Regex}
    (hop : operands? op r = some p) (h : r.callDepth ≤ room + 1) :
    ∀ s ∈ flattenChain op [r], s.callDepth ≤ room := by
  refine deepest_le_iff.mp ?_
  unfold operands? at hop
  split at hop
  · rw [callDepth] at h
    omega
  · rw [callDepth] at h
    omega
  · cases hop

/-- The depth of an expression is room enough to find the least length of a match. -/
theorem minLengthWithin_eq (h : r.callDepth ≤ room) :
    r.minLengthWithin room = some (some r.minLength) := by
  induction room generalizing r with
  | zero => exact absurd r.callDepth_pos (Nat.not_lt.mpr h)
  | succ room ih =>
      cases r with
      | empty | symbol | anchor | star | optional => rfl
      | plus r =>
          rw [callDepth] at h
          exact ih (by omega)
      | concat l r =>
          have hoperands := callDepth_operand_le .concat rfl h
          have hmeasured : Measured .concat (Option.map₂ (· + ·)) fun s => some s.minLength :=
            .of_concat fun _ _ => rfl
          rw [minLengthWithin, foldlM_eq_some fun s hs => ih (hoperands s hs),
            hmeasured.foldl_flattenChain ⟨fun _ _ _ => Option.map₂_assoc Nat.add_assoc⟩]
          exact congrArg some (zero_map₂ Nat.zero_add (some _))
      | alternate l r =>
          have hoperands := callDepth_operand_le .alternate rfl h
          have hmeasured : Measured .alternate (Option.merge min) fun s => some s.minLength :=
            .of_alternate fun _ _ => rfl
          rw [minLengthWithin, foldlM_eq_some fun s hs => ih (hoperands s hs),
            hmeasured.foldl_flattenChain inferInstance]
          rfl

/-- The depth of an expression is room enough to find the greatest length of a match, or that
there is none. -/
theorem maxLengthWithin_eq (h : r.callDepth ≤ room) :
    r.maxLengthWithin room = some r.maxLength? := by
  induction room generalizing r with
  | zero => exact absurd r.callDepth_pos (Nat.not_lt.mpr h)
  | succ room ih =>
      cases r with
      | empty | symbol | anchor => rfl
      | star r | plus r | optional r =>
          rw [callDepth] at h
          rw [maxLengthWithin, ih (by omega)]
          rfl
      | concat l r =>
          have hoperands := callDepth_operand_le .concat rfl h
          have hmeasured : Measured .concat (Option.map₂ (· + ·)) maxLength? :=
            .of_concat maxLength?_concat
          rw [maxLengthWithin, joinBounds_eq_some fun s hs => ih (hoperands s hs),
            hmeasured.foldl_flattenChain ⟨fun _ _ _ => Option.map₂_assoc Nat.add_assoc⟩]
          exact congrArg some (zero_map₂ Nat.zero_add _)
      | alternate l r =>
          have hoperands := callDepth_operand_le .alternate rfl h
          have hmeasured : Measured .alternate (Option.map₂ max) maxLength? :=
            .of_alternate maxLength?_alternate
          rw [maxLengthWithin, joinBounds_eq_some fun s hs => ih (hoperands s hs),
            hmeasured.foldl_flattenChain ⟨fun _ _ _ => Option.map₂_assoc Nat.max_assoc⟩]
          exact congrArg some (zero_map₂ Nat.zero_max _)

end Regex

end RegexEngine
