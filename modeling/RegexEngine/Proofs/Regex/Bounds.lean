/-
# `Regex.Spans` — what an expression demands of its matches

Three facts are read off an expression before it is matched: how many symbols a match
has at least, how many it has at most, and which literals it begins with.  Each is
necessary for a match, between any two offsets of any text, and each is proved by
induction on the expression.

The symbols of a match are counted by what is left behind it: the symbols from its
start on are those of the match and those from its end on.  So the bounds compare
lengths, and need no name for the symbols between (`Spans.minLength_le`,
`Spans.le_maxLength`).  The literals are the exception (`Spans.requiredSymbols_prefix`).
They belong to the factors of the expression, so spans are first cut at the factors
(`spansInTurn_factors`).
-/
import RegexEngine.Filter
import RegexEngine.Proofs.Regex.Spans

namespace RegexEngine.Regex

variable {flags : Flags} {x : Text} {r : Regex} {i j n : Nat}

/-! ## The number of symbols -/

/-- A match has at least as many symbols as the expression says. -/
theorem Spans.minLength_le (h : r.Spans flags x i j) :
    r.minLength + (x.symbolsFrom j).length ≤ (x.symbolsFrom i).length := by
  induction r generalizing i j with
  | empty =>
      obtain rfl : i = j := h
      exact Nat.le_of_eq (Nat.zero_add _)
  | symbol s =>
      obtain ⟨c, hread, _⟩ : ∃ c, x.Reads i c j ∧ s.Takes flags c := h
      rw [hread.symbolsFrom, List.length_cons]
      exact Nat.le_of_eq (Nat.add_comm 1 _)
  | anchor a =>
      obtain ⟨rfl, _⟩ : i = j ∧ a.holds x i flags = true := h
      exact Nat.le_of_eq (Nat.zero_add _)
  | concat l r ihl ihr =>
      obtain ⟨k, hl, hr⟩ : ∃ k, l.Spans flags x i k ∧ r.Spans flags x k j := h
      have hfront := ihl hl
      have hback := ihr hr
      show l.minLength + r.minLength + _ ≤ _
      omega
  | alternate l r ihl ihr =>
      have hmin : min l.minLength r.minLength + (x.symbolsFrom j).length ≤
          (x.symbolsFrom i).length := by
        rcases (h : l.Spans flags x i j ∨ r.Spans flags x i j) with hl | hr
        · exact Nat.le_trans (Nat.add_le_add_right (Nat.min_le_left _ _) _) (ihl hl)
        · exact Nat.le_trans (Nat.add_le_add_right (Nat.min_le_right _ _) _) (ihr hr)
      exact hmin
  | star r ih =>
      show 0 + _ ≤ _
      induction (h : Relation.ReflTransGen (r.Spans flags x) i j) with
      | refl => exact Nat.le_of_eq (Nat.zero_add _)
      | tail _ hlast hfront =>
          have hround := ih hlast
          omega
  | plus r ih =>
      show r.minLength + _ ≤ _
      induction (h : Relation.TransGen (r.Spans flags x) i j) with
      | single hround => exact ih hround
      | tail _ hlast hfront =>
          have hround := ih hlast
          omega
  | optional r ih =>
      show 0 + _ ≤ _
      cases (h : Relation.ReflGen (r.Spans flags x) i j) with
      | refl => exact Nat.le_of_eq (Nat.zero_add _)
      | single hround =>
          have := ih hround
          omega

/-- A bound on two parts comes from bounds on each. -/
theorem exists_bounds {f : Nat → Nat → Nat} {p q : Option Nat}
    (h : (match p, q with | some m, some k => some (f m k) | _, _ => none) = some n) :
    ∃ m k, p = some m ∧ q = some k ∧ f m k = n := by
  cases p with
  | none => cases h
  | some m =>
      cases q with
      | none => cases h
      | some k => exact ⟨m, k, rfl, rfl, Option.some.inj h⟩

/-- A repetition is bounded only by zero, and only if what it repeats is. -/
theorem repeatedLength?_eq_some {p : Option Nat} (h : repeatedLength? p = some n) :
    p = some 0 ∧ n = 0 := by
  unfold repeatedLength? at h
  split at h
  · exact ⟨rfl, (Option.some.inj h).symm⟩
  · cases h

/-- A match has at most as many symbols as the expression says, if it says so. -/
theorem Spans.le_maxLength (h : r.Spans flags x i j) (hn : r.maxLength? = some n) :
    (x.symbolsFrom i).length ≤ n + (x.symbolsFrom j).length := by
  induction r generalizing i j n with
  | empty =>
      obtain rfl : i = j := h
      exact Nat.le_add_left _ _
  | symbol s =>
      obtain ⟨c, hread, _⟩ : ∃ c, x.Reads i c j ∧ s.Takes flags c := h
      obtain rfl : 1 = n := Option.some.inj hn
      rw [hread.symbolsFrom, List.length_cons]
      exact Nat.le_of_eq (Nat.add_comm _ 1)
  | anchor a =>
      obtain ⟨rfl, _⟩ : i = j ∧ a.holds x i flags = true := h
      exact Nat.le_add_left _ _
  | concat l r ihl ihr =>
      obtain ⟨k, hl, hr⟩ : ∃ k, l.Spans flags x i k ∧ r.Spans flags x k j := h
      obtain ⟨m, m', hm, hm', rfl⟩ := exists_bounds hn
      have hfront := ihl hl hm
      have hback := ihr hr hm'
      omega
  | alternate l r ihl ihr =>
      obtain ⟨m, m', hm, hm', rfl⟩ := exists_bounds hn
      rcases (h : l.Spans flags x i j ∨ r.Spans flags x i j) with hl | hr
      · exact Nat.le_trans (ihl hl hm) (Nat.add_le_add_right (Nat.le_max_left _ _) _)
      · exact Nat.le_trans (ihr hr hm') (Nat.add_le_add_right (Nat.le_max_right _ _) _)
  | star r ih =>
      obtain ⟨hzero, rfl⟩ := repeatedLength?_eq_some hn
      induction (h : Relation.ReflTransGen (r.Spans flags x) i j) with
      | refl => exact Nat.le_add_left _ _
      | tail _ hlast hfront =>
          have hround := ih hlast hzero
          omega
  | plus r ih =>
      obtain ⟨hzero, rfl⟩ := repeatedLength?_eq_some hn
      induction (h : Relation.TransGen (r.Spans flags x) i j) with
      | single hround => exact ih hround hzero
      | tail _ hlast hfront =>
          have hround := ih hlast hzero
          omega
  | optional r ih =>
      cases (h : Relation.ReflGen (r.Spans flags x) i j) with
      | refl => exact Nat.le_add_left _ _
      | single hround => exact ih hround hn

/-! ## The literals in front -/

/-- The expressions match one after the other. -/
def SpansInTurn (flags : Flags) (x : Text) : List Regex → Nat → Nat → Prop
  | [] => fun i j => i = j
  | r :: rest => Relation.Comp (r.Spans flags x) (SpansInTurn flags x rest)

/-- A match of an expression, and of others behind it, is a match of its factors in
turn. -/
theorem spansInTurn_factorsOnto {following : List Regex} :
    SpansInTurn flags x (r.factorsOnto following) i j ↔
      ∃ k, r.Spans flags x i k ∧ SpansInTurn flags x following k j := by
  induction r generalizing following i j with
  | concat l r ihl ihr =>
      constructor
      · intro h
        obtain ⟨k, hl, h⟩ := ihl.mp h
        obtain ⟨k', hr, hrest⟩ := ihr.mp h
        exact ⟨k', ⟨k, hl, hr⟩, hrest⟩
      · rintro ⟨k', ⟨k, hl, hr⟩, hrest⟩
        exact ihl.mpr ⟨k, hl, ihr.mpr ⟨k', hr, hrest⟩⟩
  | _ => exact Iff.rfl

theorem spansInTurn_factors : SpansInTurn flags x r.factors i j ↔ r.Spans flags x i j := by
  refine spansInTurn_factorsOnto.trans ⟨?_, fun h => ⟨j, h, rfl⟩⟩
  rintro ⟨k, h, rfl⟩
  exact h

/-- With regard to case, factors in turn match only where their leading literals
stand. -/
theorem SpansInTurn.leadingLiterals_prefix {rs : List Regex} (hcase : flags.caseInsensitive = false)
    (h : SpansInTurn flags x rs i j) : leadingLiterals rs <+: x.symbolsFrom i := by
  fun_induction leadingLiterals rs generalizing i with
  | case1 c rest ih =>
      obtain ⟨k, ⟨d, hread, htakes⟩, hrest⟩ : ∃ k,
        (∃ d, x.Reads i d k ∧ (SymbolSet.single c).Takes flags d) ∧
          SpansInTurn flags x rest k j := h
      have hd : d = c := by
        rw [SymbolSet.Takes, hcase] at htakes
        exact htakes
      rw [hread.symbolsFrom, hd]
      exact List.cons_prefix_cons.mpr ⟨rfl, ih hrest⟩
  | case2 rs _ => exact List.nil_prefix

/-- With regard to case, an expression matches only where the literals stand that it
requires.  A leading `^` consumes nothing, so they stand where the match starts. -/
theorem Spans.requiredSymbols_prefix (hcase : flags.caseInsensitive = false)
    (h : r.Spans flags x i j) : r.requiredSymbols <+: x.symbolsFrom i := by
  have hfactors := spansInTurn_factors.mpr h
  unfold requiredSymbols
  split
  · rename_i rest hanchor
    rw [hanchor] at hfactors
    obtain ⟨k, ⟨rfl, _⟩, hrest⟩ : ∃ k, (i = k ∧ Anchor.start.holds x i flags = true) ∧
      SpansInTurn flags x rest k j := hfactors
    exact hrest.leadingLiterals_prefix hcase
  · exact hfactors.leadingLiterals_prefix hcase

end RegexEngine.Regex
