/-
# `Automaton.ofRegex` means what its expression means

The states of an expression are a block of consecutive ones, and every node of the
expression adds one or two to the blocks of its operands.  What is proved by
induction over the expression is that a block is a fragment that realizes the spans
of its expression.  It comes in two forms, as the construction does:

* as a whole (`Whole`), entered at its first state and left at its own exit, for any
  transitions out of this exit;
* as a branch of an alternation (`Branch`), entered at the first states of all its
  branches and left to the exit of the alternation, which lies outside.

Only an alternation makes a difference between the two: for any other expression the
branch is the whole with one more jump (`Whole.branch`).

Blocks are written in front of the states that follow, so every step of the induction
also hands on that these states are where they belong (`Lists`).
-/
import Mathlib.Order.Interval.Set.Basic
import RegexEngine.Automaton.Build
import RegexEngine.Proofs.Automaton.Fragment
import RegexEngine.Proofs.Match.Acceptance
import RegexEngine.Proofs.Regex.Spans

namespace RegexEngine

/-! ## Sizes and exits -/

namespace Regex

variable {base stop : Nat}

theorem blockSize_pos (asBranch : Bool) (r : Regex) : 0 < r.blockSize asBranch := by
  induction r generalizing asBranch with
  | empty | symbol | anchor | star | plus | optional => simp only [blockSize]; omega
  | concat l r ihl ihr =>
      have := ihl false
      simp only [blockSize]
      omega
  | alternate l r ihl ihr =>
      have := ihl true
      simp only [blockSize]
      omega

/-- The branches of an alternation stand between its entry and its exit. -/
theorem alternate_body {l r : Regex} (hstop : stop = base + (alternate l r).blockSize false) :
    stop - 1 = base + 1 + (alternate l r).blockSize true := by
  simp only [blockSize, Bool.false_eq_true, if_false, if_true] at hstop ⊢
  omega

/-- The exit of a block is one of its states. -/
theorem blockExit_mem {r : Regex} (hstop : stop = base + r.blockSize false) :
    base ≤ r.blockExit base stop ∧ r.blockExit base stop < stop := by
  induction r generalizing base stop with
  | concat l r ihl ihr =>
      simp only [blockSize] at hstop
      have hsplit : stop = stop - r.blockSize false + r.blockSize false := by omega
      have := ihr hsplit
      simp only [blockExit]
      omega
  | empty | symbol | anchor | star | alternate | plus | optional =>
      simp only [blockSize, Bool.false_eq_true, if_false] at hstop
      simp only [blockExit]
      omega

/-- The first states of all branches of an alternation. -/
def branchBases (base stop : Nat) : Regex → Set Nat
  | .alternate l r =>
      let middle := stop - r.blockSize true
      l.branchBases base middle ∪ r.branchBases middle stop
  | _ => {base}

/-- As a branch, an expression that is no alternation is its own block. -/
theorem branch_eq_whole {r : Regex} (hr : ∀ l₁ l₂, r ≠ .alternate l₁ l₂) :
    r.blockSize true = r.blockSize false ∧ (∀ base stop, r.branchBases base stop = {base}) ∧
      ∀ flags base stop out following, r.block flags true base stop out following =
        r.block flags false base stop out following := by
  cases r with
  | alternate l₁ l₂ => exact absurd rfl (hr l₁ l₂)
  | _ => exact ⟨rfl, fun _ _ => rfl, fun _ _ _ _ _ => rfl⟩

theorem mem_branchEntries {r : Regex} {following : List Transition} {tr : Transition} :
    tr ∈ r.branchEntries base stop following ↔
      (∃ t ∈ r.branchBases base stop, tr = .epsilon t) ∨ tr ∈ following := by
  induction r generalizing base stop following with
  | alternate l r ihl ihr =>
      simp only [branchEntries, branchBases, ihl, ihr, Set.mem_union, or_and_right, exists_or,
        or_assoc]
  | _ => simp [branchEntries, branchBases]

end Regex

namespace Automaton

/-- The transitions out of the states from `q` on are those of the rows. -/
def Lists (a : Automaton) (q : Nat) : List (List Transition) → Prop
  | [] => True
  | row :: rows => a.out q = row ∧ Lists a (q + 1) rows

/-- The block of an expression, as a whole. -/
def Whole (a : Automaton) (x : Text) (r : Regex) : Prop :=
  ∀ base stop out following, stop = base + r.blockSize false →
    a.Lists base (r.block a.flags false base stop out following) →
    a.Lists stop following ∧ a.out (r.blockExit base stop) = out ∧
      ∃ S ⊆ Set.Ico base stop,
        a.Realizes x S {base} (r.blockExit base stop) (r.Spans a.flags x)

/-- The block of an expression, as a branch of an alternation with the given exit. -/
def Branch (a : Automaton) (x : Text) (r : Regex) : Prop :=
  ∀ base stop exit following, stop = base + r.blockSize true → exit ∉ Set.Ico base stop →
    a.Lists base (r.block a.flags true base stop [.epsilon exit] following) →
    a.Lists stop following ∧
      ∃ S ⊆ Set.Ico base stop,
        a.Realizes x S (r.branchBases base stop) exit (r.Spans a.flags x)

variable {a : Automaton} {x : Text} {l r : Regex}

theorem jumps_branches {q base stop : Nat} (hout : a.out q = r.branchEntries base stop []) :
    a.Jumps q (r.branchBases base stop) := by
  intro tr
  rw [hout, Regex.mem_branchEntries]
  exact or_iff_left List.not_mem_nil

/-! ## One lemma for every kind of node -/

theorem whole_empty (a : Automaton) (x : Text) : a.Whole x .empty := by
  rintro base stop out following rfl ⟨hout, hrest⟩
  exact ⟨hrest, hout, ∅, Set.empty_subset _, .skip a x base⟩

theorem singleton_subset_pair (base : Nat) : {base} ⊆ Set.Ico base (base + 2) :=
  Set.singleton_subset_iff.mpr ⟨Nat.le_refl base, Nat.lt_add_of_pos_right (Nat.succ_pos 1)⟩

theorem whole_symbol (s : SymbolSet) : a.Whole x (.symbol s) := by
  rintro base stop out following rfl ⟨hrow, hout, hrest⟩
  refine ⟨hrest, hout, {base}, singleton_subset_pair base,
    (Realizes.transition hrow (Nat.succ_ne_self base)).congr ?_⟩
  intro i j
  exact exists_congr fun c => and_congr_right fun _ => s.acceptsSymbol_normalize a.flags c

theorem whole_anchor (anchor : Anchor) : a.Whole x (.anchor anchor) := by
  rintro base stop out following rfl ⟨hrow, hout, hrest⟩
  exact ⟨hrest, hout, {base}, singleton_subset_pair base,
    .transition hrow (Nat.succ_ne_self base)⟩

theorem Whole.concat (hl : a.Whole x l) (hr : a.Whole x r) : a.Whole x (.concat l r) := by
  intro base stop out following hstop hlists
  simp only [Regex.blockSize] at hstop
  have hmiddle : stop - r.blockSize false = base + l.blockSize false := by omega
  have hsplit : stop = stop - r.blockSize false + r.blockSize false := by omega
  obtain ⟨hback, hjump, S₁, hS₁, h₁⟩ := hl _ _ _ _ hmiddle hlists
  obtain ⟨hrest, hout, S₂, hS₂, h₂⟩ := hr _ _ _ _ hsplit hback
  have hexit₁ := Regex.blockExit_mem hmiddle
  have hexit₂ := Regex.blockExit_mem hsplit
  have hne : r.blockExit (stop - r.blockSize false) stop ≠
      l.blockExit base (stop - r.blockSize false) := by omega
  refine ⟨hrest, hout, _, ?_, h₁.compose (h₂.jump (jumps_singleton hjump) hne) ?_⟩
  · refine Set.union_subset (hS₁.trans (Set.Ico_subset_Ico_right (by omega))) ?_
    exact Set.insert_subset ⟨by omega, by omega⟩ (hS₂.trans (Set.Ico_subset_Ico_left (by omega)))
  · intro hmem
    exact absurd (hS₁ hmem).2 (Nat.not_lt.mpr hexit₂.1)

/-- As a branch, an expression that is no alternation is its own block, whose exit
jumps to the exit of the alternation. -/
theorem Whole.branch (h : a.Whole x r) (hr : ∀ l₁ l₂, r ≠ .alternate l₁ l₂) : a.Branch x r := by
  intro base stop exit following hstop hexit hlists
  obtain ⟨hsize, hbases, hblock⟩ := Regex.branch_eq_whole hr
  rw [hsize] at hstop
  rw [hblock] at hlists
  obtain ⟨hrest, hout, S, hS, hreal⟩ := h _ _ _ _ hstop hlists
  have hmem := Regex.blockExit_mem hstop
  refine ⟨hrest, _, ?_,
    hbases base stop ▸ hreal.leave (jumps_singleton hout) ?_ fun hin => hexit (hS hin)⟩
  · exact Set.union_subset hS (Set.singleton_subset_iff.mpr hmem)
  · rintro rfl
    exact hexit hmem

theorem Branch.alternate (hl : a.Branch x l) (hr : a.Branch x r) :
    a.Branch x (.alternate l r) := by
  intro base stop exit following hstop hexit hlists
  simp only [Regex.blockSize, if_true, Nat.zero_add] at hstop
  have hmiddle : stop - r.blockSize true = base + l.blockSize true := by omega
  have hsplit : stop = stop - r.blockSize true + r.blockSize true := by omega
  have hfront : Set.Ico base (stop - r.blockSize true) ⊆ Set.Ico base stop :=
    Set.Ico_subset_Ico_right (by omega)
  have hbehind : Set.Ico (stop - r.blockSize true) stop ⊆ Set.Ico base stop :=
    Set.Ico_subset_Ico_left (by omega)
  obtain ⟨hback, S₁, hS₁, h₁⟩ := hl _ _ _ _ hmiddle (fun h => hexit (hfront h)) hlists
  obtain ⟨hrest, S₂, hS₂, h₂⟩ := hr _ _ _ _ hsplit (fun h => hexit (hbehind h)) hback
  exact ⟨hrest, _, Set.union_subset (hS₁.trans hfront) (hS₂.trans hbehind), h₁.union h₂⟩

/-- An alternation as a whole is a branch with a first state in front and the exit
behind. -/
theorem Whole.alternate (h : a.Branch x (.alternate l r)) : a.Whole x (.alternate l r) := by
  rintro base stop out following hstop ⟨hrow, hlists⟩
  have hbody := Regex.alternate_body hstop
  have hlast : stop - 1 + 1 = stop := by omega
  have hout : stop - 1 ∉ Set.Ico (base + 1) (stop - 1) := fun hmem => Nat.lt_irrefl _ hmem.2
  obtain ⟨⟨hexit, hrest⟩, S, hS, hreal⟩ := h _ _ _ _ hbody hout hlists
  have hne : stop - 1 ≠ base := by omega
  rw [hlast] at hrest
  refine ⟨hrest, hexit, _, ?_, hreal.jump (jumps_branches hrow) hne⟩
  exact Set.insert_subset ⟨Nat.le_refl _, by omega⟩
    (hS.trans (Set.Ico_subset_Ico (Nat.le_succ base) (Nat.sub_le stop 1)))

theorem Whole.star (h : a.Whole x r) : a.Whole x (.star r) := by
  rintro base stop out following hstop ⟨hrow, hout, hlists⟩
  simp only [Regex.blockSize] at hstop
  have hbody : stop = base + 2 + r.blockSize false := by omega
  obtain ⟨hrest, hback, S, hS, hreal⟩ := h _ _ _ _ hbody hlists
  have hexit := Regex.blockExit_mem hbody
  have hne : base + 1 ≠ r.blockExit (base + 2) stop := by omega
  have hnotin : base + 1 ∉ S := fun hmem => Nat.not_succ_le_self _ (hS hmem).1
  refine ⟨hrest, hout, _, ?_,
    hreal.star (jumps_pair hrow) (jumps_pair hback) (Nat.succ_ne_self base) hne hnotin⟩
  refine Set.union_subset (hS.trans (Set.Ico_subset_Ico_left (Nat.le_add_right base 2))) ?_
  exact Set.insert_subset ⟨by omega, by omega⟩
    (Set.singleton_subset_iff.mpr ⟨by omega, by omega⟩)

theorem Whole.plus (h : a.Whole x r) : a.Whole x (.plus r) := by
  intro base stop out following hstop hlists
  simp only [Regex.blockSize] at hstop
  have hbody : stop - 1 = base + r.blockSize false := by omega
  have hlast : stop - 1 + 1 = stop := by omega
  obtain ⟨⟨hout, hrest⟩, hback, S, hS, hreal⟩ := h _ _ _ _ hbody hlists
  have hexit := Regex.blockExit_mem hbody
  have hne : stop - 1 ≠ r.blockExit base (stop - 1) := by omega
  have hnotin : stop - 1 ∉ S := fun hmem => Nat.lt_irrefl _ (hS hmem).2
  rw [hlast] at hrest
  refine ⟨hrest, hout, _, ?_, hreal.plus (jumps_pair hback) hne hnotin⟩
  exact Set.union_subset (hS.trans (Set.Ico_subset_Ico_right (Nat.sub_le stop 1)))
    (Set.singleton_subset_iff.mpr ⟨by omega, by omega⟩)

theorem Whole.optional (h : a.Whole x r) : a.Whole x (.optional r) := by
  rintro base stop out following hstop ⟨hrow, hlists⟩
  simp only [Regex.blockSize] at hstop
  have hbody : stop - 1 = base + 1 + r.blockSize false := by omega
  have hlast : stop - 1 + 1 = stop := by omega
  obtain ⟨⟨hout, hrest⟩, hback, S, hS, hreal⟩ := h _ _ _ _ hbody hlists
  have hexit := Regex.blockExit_mem hbody
  have hne : stop - 1 ≠ r.blockExit (base + 1) (stop - 1) := by omega
  have hnotin : stop - 1 ∉ S := fun hmem => Nat.lt_irrefl _ (hS hmem).2
  have hneq : stop - 1 ≠ base := by omega
  rw [hlast] at hrest
  refine ⟨hrest, hout, _, ?_,
    hreal.optional (jumps_pair hrow) (jumps_singleton hback) hneq hne hnotin⟩
  refine Set.insert_subset ⟨Nat.le_refl _, by omega⟩ (Set.union_subset ?_ ?_)
  · exact hS.trans (Set.Ico_subset_Ico (Nat.le_succ base) (Nat.sub_le stop 1))
  · exact Set.singleton_subset_iff.mpr ⟨by omega, by omega⟩

/-- The block of every expression realizes the spans of the expression, in both forms. -/
theorem whole_and_branch (a : Automaton) (x : Text) (r : Regex) :
    a.Whole x r ∧ a.Branch x r := by
  have both : ∀ {r : Regex}, (∀ l₁ l₂, r ≠ .alternate l₁ l₂) → a.Whole x r →
      a.Whole x r ∧ a.Branch x r := fun hr hwhole => ⟨hwhole, hwhole.branch hr⟩
  induction r with
  | empty => exact both nofun (whole_empty a x)
  | symbol s => exact both nofun (whole_symbol s)
  | anchor anchor => exact both nofun (whole_anchor anchor)
  | concat l r ihl ihr => exact both nofun (ihl.1.concat ihr.1)
  | alternate l r ihl ihr =>
      have hbranch := ihl.2.alternate ihr.2
      exact ⟨.alternate hbranch, hbranch⟩
  | star r ih => exact both nofun ih.1.star
  | plus r ih => exact both nofun ih.1.plus
  | optional r ih => exact both nofun ih.1.optional

/-! ## Targets -/

section Targets

variable {base stop n : Nat}

theorem lt_of_mem_branchBases {t : Nat} (hstop : stop = base + r.blockSize true)
    (ht : t ∈ r.branchBases base stop) : t < stop := by
  induction r generalizing base stop with
  | alternate l r ihl ihr =>
      simp only [Regex.blockSize, if_true] at hstop
      rcases ht with ht | ht
      · have hmiddle : stop - r.blockSize true = base + l.blockSize true := by omega
        have := ihl hmiddle ht
        omega
      · have hsplit : stop = stop - r.blockSize true + r.blockSize true := by omega
        exact ihr hsplit ht
  | _ =>
      obtain rfl : t = base := ht
      rw [hstop]
      exact Nat.lt_add_of_pos_right (Regex.blockSize_pos true _)

/-- Every target is below a given bound. -/
def Below (n : Nat) (rows : List (List Transition)) : Prop :=
  ∀ row ∈ rows, ∀ tr ∈ row, tr.target < n

theorem below_cons {row : List Transition} {rows : List (List Transition)} :
    Below n (row :: rows) ↔ (∀ tr ∈ row, tr.target < n) ∧ Below n rows :=
  List.forall_mem_cons

theorem forall_epsilon_lt {p q : Nat} (hp : p < n) (hq : q < n) :
    ∀ tr ∈ [Transition.epsilon p, .epsilon q], tr.target < n :=
  List.forall_mem_cons.mpr ⟨hp, List.forall_mem_singleton.mpr hq⟩

/-- The targets in a block lie in the block, or are those of its exit. -/
theorem below_block {flags : Flags} {asBranch : Bool} {out : List Transition}
    {following : List (List Transition)} (hstop : stop = base + r.blockSize asBranch)
    (hn : stop ≤ n) (hout : ∀ tr ∈ out, tr.target < n) (hrest : Below n following) :
    Below n (r.block flags asBranch base stop out following) := by
  induction r generalizing asBranch base stop out following with
  | empty => exact below_cons.mpr ⟨hout, hrest⟩
  | symbol | anchor =>
      have hexit : base + 1 < n := by
        simp only [Regex.blockSize] at hstop
        omega
      exact below_cons.mpr ⟨List.forall_mem_singleton.mpr hexit, below_cons.mpr ⟨hout, hrest⟩⟩
  | concat l r ihl ihr =>
      simp only [Regex.blockSize] at hstop
      have hpos := r.blockSize_pos false
      have hmiddle : stop - r.blockSize false < n := by omega
      exact ihl (by omega) (by omega) (List.forall_mem_singleton.mpr hmiddle)
        (ihr (by omega) hn hout hrest)
  | alternate l r ihl ihr =>
      cases asBranch with
      | true =>
          simp only [Regex.blockSize, if_true] at hstop
          exact ihl (by omega) (by omega) hout (ihr (by omega) hn hout hrest)
      | false =>
          have hbody := Regex.alternate_body hstop
          simp only [Regex.blockSize, Bool.false_eq_true, if_false] at hstop
          have hexit : stop - 1 < n := by omega
          have hjump : ∀ tr ∈ [Transition.epsilon (stop - 1)], tr.target < n :=
            List.forall_mem_singleton.mpr hexit
          refine below_cons.mpr ⟨fun tr htr => ?_, ihl (by omega) (by omega) hjump
            (ihr (by omega) (by omega) hjump (below_cons.mpr ⟨hout, hrest⟩))⟩
          have hentry : tr ∈ (Regex.alternate l r).branchEntries (base + 1) (stop - 1) [] := htr
          rcases Regex.mem_branchEntries.mp hentry with ⟨t, ht, rfl⟩ | htr
          · exact Nat.lt_trans (lt_of_mem_branchBases hbody ht) hexit
          · exact absurd htr List.not_mem_nil
  | star r ih =>
      simp only [Regex.blockSize] at hstop
      have hpos := r.blockSize_pos false
      exact below_cons.mpr ⟨forall_epsilon_lt (by omega) (by omega), below_cons.mpr ⟨hout,
        ih (by omega) hn (forall_epsilon_lt (by omega) (by omega)) hrest⟩⟩
  | plus r ih =>
      simp only [Regex.blockSize] at hstop
      have hpos := r.blockSize_pos false
      exact ih (by omega) (by omega) (forall_epsilon_lt (by omega) (by omega))
        (below_cons.mpr ⟨hout, hrest⟩)
  | optional r ih =>
      simp only [Regex.blockSize] at hstop
      have hpos := r.blockSize_pos false
      have hexit : stop - 1 < n := by omega
      exact below_cons.mpr ⟨forall_epsilon_lt (by omega) hexit, ih (by omega) (by omega)
        (List.forall_mem_singleton.mpr hexit) (below_cons.mpr ⟨hout, hrest⟩)⟩

end Targets

/-! ## Sets -/

/-- What silent transitions and the normalized sets of the expression have, all rows of a
block have. -/
theorem forall_mem_block {P : Transition → Prop} {flags : Flags} {asBranch : Bool}
    {base stop : Nat} {out : List Transition} {following : List (List Transition)}
    (hepsilon : ∀ t, P (.epsilon t)) (hassert : ∀ anchor t, P (.assert anchor t))
    (hsymbol : ∀ s ∈ r.sets, ∀ t, P (.symbol (s.normalize flags) t))
    (hout : ∀ tr ∈ out, P tr) (hrest : ∀ row ∈ following, ∀ tr ∈ row, P tr) :
    ∀ row ∈ r.block flags asBranch base stop out following, ∀ tr ∈ row, P tr := by
  have hone : ∀ p, ∀ tr ∈ [Transition.epsilon p], P tr := fun p =>
    List.forall_mem_singleton.mpr (hepsilon p)
  have htwo : ∀ p q, ∀ tr ∈ [Transition.epsilon p, .epsilon q], P tr := fun p q =>
    List.forall_mem_cons.mpr ⟨hepsilon p, hone q⟩
  induction r generalizing asBranch base stop out following with
  | empty => exact List.forall_mem_cons.mpr ⟨hout, hrest⟩
  | symbol s =>
      have hrow := List.forall_mem_singleton.mpr
        (hsymbol s (List.mem_singleton_self s) (base + 1))
      exact List.forall_mem_cons.mpr ⟨hrow, List.forall_mem_cons.mpr ⟨hout, hrest⟩⟩
  | anchor anchor =>
      have hrow := List.forall_mem_singleton.mpr (hassert anchor (base + 1))
      exact List.forall_mem_cons.mpr ⟨hrow, List.forall_mem_cons.mpr ⟨hout, hrest⟩⟩
  | concat l r ihl ihr =>
      obtain ⟨hl, hr⟩ := List.forall_mem_append.mp hsymbol
      exact ihl hl (hone _) (ihr hr hout hrest)
  | alternate l r ihl ihr =>
      obtain ⟨hl, hr⟩ := List.forall_mem_append.mp hsymbol
      cases asBranch with
      | true => exact ihl hl hout (ihr hr hout hrest)
      | false =>
          have hentries : ∀ tr ∈ (Regex.alternate l r).branchEntries (base + 1) (stop - 1) [],
              P tr := by
            intro tr htr
            rcases Regex.mem_branchEntries.mp htr with ⟨t, _, rfl⟩ | htr
            · exact hepsilon t
            · exact absurd htr List.not_mem_nil
          exact List.forall_mem_cons.mpr ⟨hentries, ihl hl (hone _)
            (ihr hr (hone _) (List.forall_mem_cons.mpr ⟨hout, hrest⟩))⟩
  | star r ih =>
      exact List.forall_mem_cons.mpr ⟨htwo _ _,
        List.forall_mem_cons.mpr ⟨hout, ih hsymbol (htwo _ _) hrest⟩⟩
  | plus r ih => exact ih hsymbol (htwo _ _) (List.forall_mem_cons.mpr ⟨hout, hrest⟩)
  | optional r ih =>
      exact List.forall_mem_cons.mpr ⟨htwo _ _,
        ih hsymbol (hone _) (List.forall_mem_cons.mpr ⟨hout, hrest⟩)⟩

/-! ## The whole automaton -/

theorem lists_of_getElem? {q : Nat} {rows : List (List Transition)}
    (h : ∀ k row, rows[k]? = some row → a.out (q + k) = row) : a.Lists q rows := by
  induction rows generalizing q with
  | nil => trivial
  | cons row rows ih =>
      refine ⟨h 0 row rfl, ih ?_⟩
      intro k row' hrow
      rw [Nat.add_assoc, Nat.add_comm 1 k]
      exact h (k + 1) row' hrow

theorem lists_ofRegex (r : Regex) (flags : Flags) :
    (ofRegex r flags).Lists 0 (r.block flags false 0 (r.blockSize false) [] []) := by
  refine lists_of_getElem? ?_
  intro k row hrow
  rw [Nat.zero_add, out, ofRegex, List.getElem?_toArray, hrow]
  rfl

theorem wellFormed_ofRegex (r : Regex) (flags : Flags) : (ofRegex r flags).WellFormed := by
  have hexit := Regex.blockExit_mem (Nat.zero_add (r.blockSize false)).symm
  rw [wellFormed_iff, size_ofRegex]
  refine ⟨Regex.blockSize_pos false r, hexit.2, ?_⟩
  exact below_block (Nat.zero_add _).symm (Nat.le_refl _) (List.forall_mem_nil _)
    (List.forall_mem_nil _)

/-- The sets of the automaton are the normalized sets of the expression. -/
theorem exists_set_of_mem_ofRegex {flags : Flags} {q t : Nat} {s : SymbolSet}
    (h : .symbol s t ∈ (ofRegex r flags).out q) : ∃ w ∈ r.sets, s = w.normalize flags := by
  have hall : ∀ q, ∀ tr ∈ (ofRegex r flags).out q,
      ∀ s t, tr = .symbol s t → ∃ w ∈ r.sets, s = w.normalize flags := by
    refine forall_mem_out_iff.mpr (forall_mem_block nofun nofun ?_ (List.forall_mem_nil _)
      (List.forall_mem_nil _))
    intro w hw _ s t htr
    exact ⟨w, hw, (Transition.symbol.inj htr).1.symm⟩
  exact hall q _ h s t rfl

/-- The paths through the automaton of an expression realize the spans of the
expression. -/
theorem path_ofRegex_iff (r : Regex) (flags : Flags) (x : Text) (i j : Nat) :
    (ofRegex r flags).Path x ⟨(ofRegex r flags).start, i⟩ ⟨(ofRegex r flags).accept, j⟩ ↔
      r.Spans flags x i j := by
  obtain ⟨_, hout, S, _, hreal⟩ := (whole_and_branch (ofRegex r flags) x r).1 0
    (r.blockSize false) [] [] (Nat.zero_add _).symm (lists_ofRegex r flags)
  -- The exit has no transitions, so every path to it stays in front of it.
  have hstuck : ∀ k w, ¬ (r.blockExit 0 (r.blockSize false) ∈ Set.univ ∧
      (ofRegex r flags).Step x ⟨r.blockExit 0 (r.blockSize false), k⟩ w) := by
    rintro k w ⟨_, hstep⟩
    have hjump : (ofRegex r flags).Jumps (r.blockExit 0 (r.blockSize false)) ∅ := by
      intro tr
      rw [hout]
      simp
    obtain ⟨_, ht, _⟩ := hjump.of_step hstep
    exact absurd ht (Set.notMem_empty _)
  rw [← leads_univ]
  refine Iff.trans ⟨?_, ?_⟩ (hreal.leads_iff i j)
  · intro hleads
    exact ⟨0, rfl, hleads.confine hreal.toClosed (hreal.entry 0 rfl) hstuck⟩
  · rintro ⟨_, rfl, hleads⟩
    exact hleads.mono (Set.subset_univ S)

theorem accepts_iff_spans {flags : Flags} {x : Text} :
    (ofRegex r flags).accepts x .unlimited = .ok true ↔ r.Spans flags x 0 x.length := by
  obtain ⟨b, haccepts, hpath⟩ := accepts_spec (wellFormed_ofRegex r flags) x
  rw [haccepts, ← path_ofRegex_iff, ← hpath]
  exact ⟨Except.ok.inj, congrArg _⟩

/-- Without ceilings, the automaton of an expression accepts a text exactly if the
expression spans the whole of it. -/
theorem accepts_ofRegex (r : Regex) (flags : Flags) (x : Text) :
    ∃ b, (ofRegex r flags).accepts x .unlimited = .ok b ∧
      (b = true ↔ r.Spans flags x 0 x.length) := by
  obtain ⟨b, haccepts, hiff⟩ := accepts_spec (wellFormed_ofRegex r flags) x
  exact ⟨b, haccepts, hiff.trans (path_ofRegex_iff r flags x 0 x.length)⟩

/-- The expression of `(^|[cb-d]?)*x`, whose loop may pass without a symbol. -/
def nullableLoop : Regex :=
  .concat
    (.star (.alternate (.anchor .start)
      (.optional (.symbol (.among ⟨false, #[⟨0x63, 0x63⟩, ⟨0x62, 0x64⟩]⟩)))))
    (.literal 0x78)

theorem accepts_ofRegex_nullableLoop :
    nullableLoop.Spans ⟨true, false⟩ (.ofString "BdX") 0 (Text.ofString "BdX").length := by
  have hrun : (ofRegex nullableLoop ⟨true, false⟩).accepts (.ofString "BdX") .unlimited =
      .ok true := by decide +kernel
  obtain ⟨b, haccepts, hiff⟩ := accepts_ofRegex nullableLoop ⟨true, false⟩ (.ofString "BdX")
  exact hiff.mp (Except.ok.inj (haccepts.symm.trans hrun))

end Automaton

end RegexEngine
