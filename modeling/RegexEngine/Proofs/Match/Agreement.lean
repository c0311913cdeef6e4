/-
# `Automaton.find` against `Automaton.accepts`

The search and the full match are two simulations that share no loop.  Both are
measured against the same paths, so they agree.

* The whole text is accepted exactly if the search from its start finds the whole text
  (`accepts_iff_find_whole`): no match starts in front of it or ends behind it.
* An automaton without anchors does not see what surrounds a part of the text, so its
  paths between two boundaries are its paths through the part between them
  (`path_slice_iff`).  Its search therefore finds what one would find by trying the
  full match on every part, in order of their starts and the longest first
  (`bruteForce`).

With anchors the second fact fails: in a part that is cut out, `^` and `$` hold at new
places.
-/
import RegexEngine.Proofs.Match.LeftmostLongest
import RegexEngine.Proofs.Text.Slicing

namespace RegexEngine

namespace Automaton

variable {a : Automaton} {x : Text} {f i j k q r : Nat}

/-! ## The whole text -/

/-- There is only one leftmost longest match. -/
theorem LeftmostLongest.unique {s t : Span} (hs : a.LeftmostLongest x f s)
    (ht : a.LeftmostLongest x f t) : s = t := by
  have hstart : s.start = t.start := Nat.le_antisymm
    (hs.leftmost t.start t.stop ht.isMatch) (ht.leftmost s.start s.stop hs.isMatch)
  have hstop : s.stop = t.stop := Nat.le_antisymm
    (ht.longest s.stop (hstart ▸ hs.isMatch)) (hs.longest t.stop (hstart ▸ ht.isMatch))
  obtain ⟨start, stop, text⟩ := s
  obtain ⟨start', stop', text'⟩ := t
  obtain rfl : start = start' := hstart
  obtain rfl : stop = stop' := hstop
  obtain rfl : text = x.slice start stop := hs.text_eq
  obtain rfl : text' = x.slice start stop := ht.text_eq
  rfl

/-- The whole text is the leftmost longest match exactly if it is a match. -/
theorem leftmostLongest_whole_iff :
    a.LeftmostLongest x 0 ⟨0, x.length, x⟩ ↔ a.Path x ⟨a.start, 0⟩ ⟨a.accept, x.length⟩ := by
  constructor
  · intro h
    exact h.isMatch.2
  · intro h
    exact {
      isMatch := ⟨.refl, h⟩
      leftmost := fun i _ _ => Nat.zero_le i
      longest := fun j hmatch => hmatch.boundary.le_length (Nat.zero_le _)
      text_eq := x.slice_length.symm }

/-- A search without limits from an offset inside the text. -/
theorem find_of_le {offset : Number} (ha : a.WellFormed) (hf : f ≤ x.length)
    (hoffset : offset.firstOffset = f) :
    ∃ found, a.find x offset .unlimited = .ok found ∧
      (found = none → ∀ i j, ¬ a.MatchFrom x f i j) ∧
      ∀ span, found = some span → a.LeftmostLongest x f span := by
  have hmeter : (Meter.mk 0 .infinity).limit = .infinity := rfl
  obtain ⟨found, after, hfind, _, hnone, hsome⟩ := findFrom_spec (f := f) ha hf hmeter
  refine ⟨found, ?_, hnone, hsome⟩
  rw [find_unlimited, Number.startOffset?_eq_some_iff.mpr hoffset]
  dsimp only
  rw [hfind]
  rfl

/-- A search from an offset behind the text finds nothing. -/
theorem find_of_lt {offset : Number} (hlt : x.length < f) (hoffset : offset.firstOffset = f) :
    a.find x offset .unlimited = .ok none := by
  rw [find_unlimited, Number.startOffset?_eq_some_iff.mpr hoffset]
  dsimp only
  rw [findFrom, if_pos hlt]
  rfl

/-- What a search without limits finds is the leftmost longest match from an offset
inside the text. -/
theorem leftmostLongest_of_find {offset : Number} {span : Span} (ha : a.WellFormed)
    (h : a.find x offset .unlimited = .ok (some span)) :
    ∃ f, f ≤ x.length ∧ a.LeftmostLongest x f span := by
  cases hoffset : offset.firstOffset with
  | top =>
      rw [find_unlimited, Number.startOffset?_eq_none_iff.mpr hoffset] at h
      cases h
  | coe f =>
      rcases Nat.lt_or_ge x.length f with hlt | hf
      · rw [find_of_lt hlt hoffset] at h
        cases h
      · obtain ⟨found, hfind, _, hsome⟩ := find_of_le ha hf hoffset
        rw [h] at hfind
        exact ⟨f, hf, hsome span (Except.ok.inj hfind).symm⟩

theorem firstOffset_zero : (Number.ofNat 0).firstOffset = (0 : ℕ) :=
  Number.startOffset?_eq_some_iff.mp rfl

/-- The whole text is accepted exactly if the search from its start finds all of it. -/
theorem accepts_iff_find_whole (a : Automaton) (ha : a.WellFormed) (x : Text) :
    ∃ b found, a.accepts x .unlimited = .ok b ∧ a.find x (.ofNat 0) .unlimited = .ok found ∧
      (b = true ↔ found = some ⟨0, x.length, x⟩) := by
  obtain ⟨b, haccepts, hpath⟩ := accepts_spec ha x
  obtain ⟨found, hfind, hnone, hsome⟩ := find_of_le ha (Nat.zero_le x.length) firstOffset_zero
  refine ⟨b, found, haccepts, hfind, ?_⟩
  rw [hpath, ← leftmostLongest_whole_iff]
  constructor
  · intro hwhole
    cases found with
    | none => exact absurd hwhole.isMatch (hnone rfl _ _)
    | some span => rw [(hsome span rfl).unique hwhole]
  · intro hfound
    exact hsome _ hfound

theorem looping_accepts_iff_find_whole :
    looping.WellFormed ∧ looping.accepts (.ofString "aab") .unlimited = .ok true ∧
      looping.find (.ofString "aab") (.ofNat 0) .unlimited =
        .ok (some ⟨0, 3, .ofString "aab"⟩) := by
  have hwell : looping.WellFormed := by decide
  have hrun : looping.accepts (.ofString "aab") .unlimited = .ok true := by decide +kernel
  obtain ⟨b, found, haccepts, hfind, hiff⟩ :=
    accepts_iff_find_whole looping hwell (.ofString "aab")
  have hb : b = true := Except.ok.inj (haccepts.symm.trans hrun)
  rw [hiff.mp hb] at hfind
  exact ⟨hwell, hrun, hfind⟩

/-! ## Parts of the text -/

/-- No transition tests a position. -/
def AnchorFree (a : Automaton) : Prop := ∀ q, ∀ tr ∈ a.out q, tr.isAssert = false

instance : Decidable a.AnchorFree := decidable_of_iff _ forall_mem_out_iff.symm

/-- Without anchors, silent steps are open in every text and at every position. -/
theorem AnchorFree.silent {y : Text} {p : Nat} (h : a.AnchorFree) (hsilent : a.Silent x p q r) :
    a.Silent y k q r := by
  cases hsilent with
  | epsilon hmem => exact .epsilon hmem
  | assert hmem _ => cases h q _ hmem

/-- A path through a part is a path between its ends. -/
theorem AnchorFree.path_of_slice {v : Place} (h : a.AnchorFree) (hj : x.Boundary i j)
    (hlen : j ≤ x.length) (hpath : a.Path (x.slice i j) ⟨q, 0⟩ v) :
    a.Path x ⟨q, i⟩ ⟨v.state, i + v.offset⟩ := by
  induction hpath with
  | refl => exact .refl
  | tail _ hstep ih =>
      cases hstep with
      | silent hsilent => exact .tail ih (.silent (h.silent hsilent))
      | symbol hmem hread hacc =>
          -- The path so far ends at a boundary, where the part is read as the text.
          obtain ⟨hread', _⟩ := (Text.reads_slice_iff ih.boundary hj hlen).mp hread
          exact .tail ih (.symbol hmem hread' hacc)

/-- A path between the ends of a part is a path through it. -/
theorem AnchorFree.path_slice {v : Place} (h : a.AnchorFree) (hj : x.Boundary i j)
    (hlen : j ≤ x.length) (hpath : a.Path x ⟨q, i⟩ v) (hv : v.offset ≤ j) :
    a.Path (x.slice i j) ⟨q, 0⟩ ⟨v.state, v.offset - i⟩ := by
  induction hpath with
  | refl =>
      rw [Nat.sub_self]
      exact .refl
  | tail hfront hstep ih =>
      have hfirst := Path.le hfront
      have hback := hstep.le
      have hpath' := ih (Nat.le_trans hback hv)
      cases hstep with
      | silent hsilent => exact .tail hpath' (.silent (h.silent hsilent))
      | @symbol m t k l c s hmem hread hacc =>
          obtain ⟨d, rfl⟩ : ∃ d, k = i + d := Nat.exists_eq_add_of_le hfirst
          obtain ⟨e, rfl⟩ : ∃ e, l = i + e := Nat.exists_eq_add_of_le (Nat.le_trans hfirst hback)
          rw [Nat.add_sub_cancel_left] at hpath' ⊢
          have hread' := (Text.reads_slice_iff (Path.boundary hfront) hj hlen).mpr ⟨hread, hv⟩
          exact .tail hpath' (.symbol hmem hread' hacc)

theorem AnchorFree.path_slice_iff (h : a.AnchorFree) (hj : x.Boundary i j)
    (hlen : j ≤ x.length) :
    a.Path (x.slice i j) ⟨q, 0⟩ ⟨r, (x.slice i j).length⟩ ↔ a.Path x ⟨q, i⟩ ⟨r, j⟩ := by
  have hij := hj.le
  rw [Text.length_slice hlen]
  constructor
  · intro hpath
    have hpath' := h.path_of_slice hj hlen hpath
    dsimp only at hpath'
    rwa [Nat.add_sub_of_le hij] at hpath'
  · intro hpath
    exact h.path_slice hj hlen hpath (Nat.le_refl j)

/-! ## Trying every part -/

/-- Whether the full match accepts a part of the text. -/
def acceptsPart (a : Automaton) (x : Text) (i j : Nat) : Bool :=
  match a.accepts (x.slice i j) .unlimited with
  | .ok b => b
  | .error _ => false

/-- Where the longest part ends that starts at a boundary and is accepted. -/
def longestPart? (a : Automaton) (x : Text) (i : Nat) : Option Nat :=
  (x.boundaries i).reverse.find? (a.acceptsPart x i)

/-- Search for a match by trying every part of the text: the boundaries from an offset
on are tried one after the other, and from each one the longest part first. -/
def bruteForce (a : Automaton) (x : Text) (f : Nat) : Option Span :=
  (x.boundaries f).findSome? fun i =>
    (a.longestPart? x i).map fun j => ⟨i, j, x.slice i j⟩

/-- In an ordered list, what does not stand in front of a member comes behind it. -/
theorem mem_front_or {R : Nat → Nat → Prop} {front back : List Nat}
    (horder : (front ++ i :: back).Pairwise R) (hk : k ∈ front ++ i :: back) :
    k ∈ front ∨ k = i ∨ R i k := by
  obtain ⟨_, hback, _⟩ := List.pairwise_append.mp horder
  rcases List.mem_append.mp hk with hk | hk
  · exact .inl hk
  · exact .inr ((List.mem_cons.mp hk).imp id ((List.pairwise_cons.mp hback).1 k))

section BruteForce

variable (ha : a.WellFormed) (hfree : a.AnchorFree)

include ha

theorem acceptsPart_iff : a.acceptsPart x i j = true ↔
    a.accepts (x.slice i j) .unlimited = .ok true := by
  obtain ⟨b, haccepts, _⟩ := accepts_spec ha (x.slice i j)
  rw [acceptsPart, haccepts]
  exact ⟨fun h => congrArg _ h, fun h => Except.ok.inj h⟩

include hfree

/-- The full match on a part decides whether a run goes from one of its ends to the
other. -/
theorem accepts_slice_iff (hi : i ≤ x.length) (hj : x.Boundary i j) :
    a.accepts (x.slice i j) .unlimited = .ok true ↔ a.Path x ⟨a.start, i⟩ ⟨a.accept, j⟩ := by
  obtain ⟨b, haccepts, hiff⟩ := accepts_spec ha (x.slice i j)
  rw [haccepts, ← hfree.path_slice_iff hj (hj.le_length hi), ← hiff]
  exact ⟨fun h => Except.ok.inj h, fun h => congrArg _ h⟩

theorem longestPart?_eq_none (hi : i ≤ x.length) (h : a.longestPart? x i = none) (j : Nat) :
    ¬ a.Path x ⟨a.start, i⟩ ⟨a.accept, j⟩ := by
  intro hpath
  have hj : x.Boundary i j := hpath.boundary
  have hmem : j ∈ (x.boundaries i).reverse :=
    List.mem_reverse.mpr (Text.mem_boundaries.mpr ⟨hi, hj⟩)
  refine List.find?_eq_none.mp h j hmem ((acceptsPart_iff ha).mpr ?_)
  exact (accepts_slice_iff ha hfree hi hj).mpr hpath

theorem longestPart?_eq_some (hi : i ≤ x.length) (h : a.longestPart? x i = some j) :
    a.Path x ⟨a.start, i⟩ ⟨a.accept, j⟩ ∧
      ∀ k, a.Path x ⟨a.start, i⟩ ⟨a.accept, k⟩ → k ≤ j := by
  obtain ⟨hj, front, back, hsplit, hfront⟩ := List.find?_eq_some_iff_append.mp h
  have hiff : ∀ k, x.Boundary i k →
      (a.acceptsPart x i k = true ↔ a.Path x ⟨a.start, i⟩ ⟨a.accept, k⟩) := fun k hk =>
    (acceptsPart_iff ha).trans (accepts_slice_iff ha hfree hi hk)
  have hmem : ∀ k, k ∈ front ++ j :: back ↔ i ≤ x.length ∧ x.Boundary i k := fun k => by
    rw [← hsplit, List.mem_reverse, Text.mem_boundaries]
  have hdescending : (front ++ j :: back).Pairwise (· > ·) := by
    rw [← hsplit]
    exact List.pairwise_reverse.mpr (x.pairwise_boundaries i)
  refine ⟨(hiff j ((hmem j).mp (by simp)).2).mp hj, ?_⟩
  intro k hk
  rcases mem_front_or hdescending ((hmem k).mpr ⟨hi, hk.boundary⟩) with hk' | rfl | hlt
  · -- What stands in front in the list has been tried and refused.
    have hrefused := hfront k hk'
    rw [(hiff k hk.boundary).mpr hk] at hrefused
    cases hrefused
  · exact Nat.le_refl _
  · exact Nat.le_of_lt hlt

theorem bruteForce_eq_none (hf : f ≤ x.length) (h : a.bruteForce x f = none) (i j : Nat) :
    ¬ a.MatchFrom x f i j := by
  rintro ⟨hi, hpath⟩
  have hnone := List.findSome?_eq_none_iff.mp h i (Text.mem_boundaries.mpr ⟨hf, hi⟩)
  exact longestPart?_eq_none ha hfree (hi.le_length hf) (Option.map_eq_none_iff.mp hnone) j hpath

/-- What is found by trying every part is the leftmost longest match. -/
theorem bruteForce_eq_some {span : Span} (hf : f ≤ x.length) (h : a.bruteForce x f = some span) :
    a.LeftmostLongest x f span := by
  obtain ⟨front, i, back, hsplit, hi, hfront⟩ := List.findSome?_eq_some_iff.mp h
  obtain ⟨j, hj, rfl⟩ := Option.map_eq_some_iff.mp hi
  have hmem : ∀ k, k ∈ front ++ i :: back ↔ f ≤ x.length ∧ x.Boundary f k := fun k => by
    rw [← hsplit, Text.mem_boundaries]
  have hascending : (front ++ i :: back).Pairwise (· < ·) := by
    rw [← hsplit]
    exact x.pairwise_boundaries f
  have hboundary := ((hmem i).mp (by simp)).2
  obtain ⟨hpath, hlongest⟩ := longestPart?_eq_some ha hfree (hboundary.le_length hf) hj
  refine ⟨⟨hboundary, hpath⟩, ?_, fun k hmatch => hlongest k hmatch.2, rfl⟩
  rintro k l ⟨hk, hpath'⟩
  show i ≤ k
  rcases mem_front_or hascending ((hmem k).mpr ⟨hf, hk⟩) with hk' | rfl | hlt
  · -- From what stands in front in the list, no part is accepted.
    have hnone := Option.map_eq_none_iff.mp (hfront k hk')
    exact absurd hpath' (longestPart?_eq_none ha hfree (hk.le_length hf) hnone l)
  · exact Nat.le_refl _
  · exact Nat.le_of_lt hlt

/-- A search finds what trying every part finds. -/
theorem find_eq_ok_bruteForce {offset : Number} (hoffset : offset.firstOffset = f) :
    a.find x offset .unlimited = .ok (a.bruteForce x f) := by
  rcases Nat.lt_or_ge x.length f with hlt | hf
  · have hnone : x.boundaries f = [] := List.eq_nil_iff_forall_not_mem.mpr fun i hi => by
      have := (Text.mem_boundaries.mp hi).1
      omega
    rw [find_of_lt hlt hoffset, bruteForce, hnone]
    rfl
  · obtain ⟨found, hfind, hnone, hsome⟩ := find_of_le ha hf hoffset
    rw [hfind]
    cases hbrute : a.bruteForce x f with
    | none =>
        cases found with
        | none => rfl
        | some span =>
            exact absurd (hsome span rfl).isMatch (bruteForce_eq_none ha hfree hf hbrute _ _)
    | some span =>
        have hspan := bruteForce_eq_some ha hfree hf hbrute
        cases found with
        | none => exact absurd hspan.isMatch (hnone rfl _ _)
        | some span' => rw [(hsome span' rfl).unique hspan]

/-- The text of a span that is found is accepted by itself. -/
theorem accepts_text_of_find {offset : Number} {span : Span}
    (h : a.find x offset .unlimited = .ok (some span)) :
    a.accepts span.text .unlimited = .ok true := by
  obtain ⟨f, hf, hspan⟩ := leftmostLongest_of_find ha h
  obtain ⟨hboundary, hpath⟩ := hspan.isMatch
  rw [hspan.text_eq, accepts_slice_iff ha hfree (hboundary.le_length hf) hpath.boundary]
  exact hpath

/-- A test is passed exactly if trying every part finds one that is accepted. -/
theorem test_iff : ∃ b, a.test x .unlimited = .ok b ∧
    (b = true ↔ ∃ i j, x.Boundary 0 i ∧ x.Boundary i j ∧
      a.accepts (x.slice i j) .unlimited = .ok true) := by
  have hzero : 0 ≤ x.length := Nat.zero_le _
  refine ⟨(a.bruteForce x 0).isSome, ?_, ?_⟩
  · rw [test, find_eq_ok_bruteForce ha hfree firstOffset_zero]
    rfl
  constructor
  · intro h
    obtain ⟨span, hspan⟩ := Option.isSome_iff_exists.mp h
    obtain ⟨hi, hpath⟩ := (bruteForce_eq_some ha hfree hzero hspan).isMatch
    refine ⟨span.start, span.stop, hi, hpath.boundary, ?_⟩
    exact (accepts_slice_iff ha hfree (hi.le_length hzero) hpath.boundary).mpr hpath
  · rintro ⟨i, j, hi, hj, haccepts⟩
    have hpath := (accepts_slice_iff ha hfree (hi.le_length hzero) hj).mp haccepts
    by_contra hnone
    exact bruteForce_eq_none ha hfree hzero (Option.not_isSome_iff_eq_none.mp hnone) i j
      ⟨hi, hpath⟩

end BruteForce

/-- Without anchors and without limits, a search from a number finds what trying every
part of the text finds from the offset on that the number stands for, and nothing if
this is behind every text.  The text of what it finds is accepted by itself, and a test
is passed exactly if some part of the text between boundaries is accepted. -/
theorem find_eq_bruteForce (a : Automaton) (ha : a.WellFormed) (hfree : a.AnchorFree) (x : Text)
    (offset : Number) :
    (∀ f : ℕ, offset.firstOffset = f →
        a.find x offset .unlimited = .ok (a.bruteForce x f)) ∧
      (offset.firstOffset = ⊤ → a.find x offset .unlimited = .ok none) ∧
      (∀ span, a.find x offset .unlimited = .ok (some span) →
        a.accepts span.text .unlimited = .ok true) ∧
      ∃ b, a.test x .unlimited = .ok b ∧
        (b = true ↔ ∃ i j, x.Boundary 0 i ∧ x.Boundary i j ∧
          a.accepts (x.slice i j) .unlimited = .ok true) := by
  refine ⟨fun f => find_eq_ok_bruteForce ha hfree, ?_, fun span => accepts_text_of_find ha hfree,
    test_iff ha hfree⟩
  intro htop
  rw [find_unlimited, Number.startOffset?_eq_none_iff.mpr htop]

/-- An automaton of `.+a`, with a cycle and without anchors. -/
def cycling : Automaton where
  states := #[[.symbol .any 1], [.epsilon 0, .symbol (.single 'a'.toNat) 2], [.epsilon 2]]
  start := 0
  accept := 2
  flags := {}

/-- From inside of a pair, its low half is read as a symbol. -/
theorem cycling_find_eq_bruteForce :
    cycling.WellFormed ∧ cycling.AnchorFree ∧ (Number.ofNat 1).firstOffset = (1 : ℕ) ∧
      cycling.bruteForce (.ofString "😀aba") 1 =
        some ⟨1, 5, Text.slice (.ofString "😀aba") 1 5⟩ := by
  have hwell : cycling.WellFormed := by decide
  have hfree : cycling.AnchorFree := by decide
  have hone : (Number.ofNat 1).firstOffset = (1 : ℕ) :=
    Number.startOffset?_eq_some_iff.mp (by decide +kernel)
  have hrun : cycling.find (.ofString "😀aba") (.ofNat 1) .unlimited =
      .ok (some ⟨1, 5, Text.slice (.ofString "😀aba") 1 5⟩) := by decide +kernel
  obtain ⟨hfind, _⟩ :=
    find_eq_bruteForce cycling hwell hfree (.ofString "😀aba") (.ofNat 1)
  exact ⟨hwell, hfree, hone, Except.ok.inj ((hfind 1 hone).symm.trans hrun)⟩

end Automaton

end RegexEngine
