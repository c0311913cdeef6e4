/-
# `Automaton.findAll` is the greedy tiling

A scan for all matches is described without the scan (`Tiling`): its spans are
longest matches that follow one another without overlap, and wherever a match
starts, a span starts as well or is passed.  These conditions leave no choice
(`Tiling.unique`), since the first span has to start where the first match does.

The scan goes on at the end of a match, or one symbol further behind an empty one.
In both cases it goes on at the first boundary that the next span may start from,
which is all that the induction needs (`Tiling.cons`).  So what a scan lists is the tiling
(`findAll_spec`).
-/
import Mathlib.Data.List.Chain
import RegexEngine.Proofs.Match.LeftmostLongest

namespace RegexEngine

/-- The one span ends no later than the other starts, and starts before it. -/
def Span.Precedes (s t : Span) : Prop := s.stop ≤ t.start ∧ s.start < t.start

instance : Trans Span.Precedes Span.Precedes Span.Precedes where
  trans h h' := ⟨Nat.le_trans h.1 (Nat.le_of_lt h'.2), Nat.lt_trans h.2 h'.2⟩

namespace Automaton

/-- The spans are the matches that a greedy scan from offset `first` on lists, with
the boundaries of the whole text. -/
structure Tiling (a : Automaton) (x : Text) (first : Nat) (spans : List Span) : Prop where
  /-- A span is a match. -/
  isMatch : ∀ s ∈ spans, a.MatchFrom x 0 s.start s.stop
  /-- No match from the start of a span ends behind it. -/
  longest : ∀ s ∈ spans, ∀ j, a.MatchFrom x 0 s.start j → j ≤ s.stop
  text_eq : ∀ s ∈ spans, s.text = x.slice s.start s.stop
  first_le : ∀ s ∈ spans, first ≤ s.start
  ordered : spans.IsChain Span.Precedes
  /-- Where a match starts, a span starts too or is under way. -/
  complete : ∀ i j, a.MatchFrom x 0 i j → first ≤ i →
    ∃ s ∈ spans, i = s.start ∨ (s.start < i ∧ i < s.stop)

variable {a : Automaton} {x : Text} {f i j next : Nat} {s : Span} {spans rest : List Span}

/-- A search from a boundary on sees the matches that start there or behind it. -/
theorem matchFrom_iff (hf : x.Boundary 0 f) :
    a.MatchFrom x f i j ↔ a.MatchFrom x 0 i j ∧ f ≤ i := by
  constructor
  · intro h
    exact ⟨⟨hf.trans h.1, h.2⟩, h.1.le⟩
  · rintro ⟨h, hle⟩
    exact ⟨hf.of_le h.1 hle, h.2⟩

/-! ## One span in front -/

theorem Tiling.nil (h : ∀ i j, a.MatchFrom x 0 i j → ¬ f ≤ i) : Tiling a x f [] where
  isMatch := List.forall_mem_nil _
  longest := List.forall_mem_nil _
  text_eq := List.forall_mem_nil _
  first_le := List.forall_mem_nil _
  ordered := .nil
  complete := fun i j hmatch hle => absurd hle (h i j hmatch)

/-- A leftmost longest match goes in front of a tiling from the first boundary that
neither overlaps it nor is its start. -/
theorem Tiling.cons (hf : x.Boundary 0 f) (hs : a.LeftmostLongest x f s)
    (hstop : s.stop ≤ next) (hstart : s.start < next)
    (hnext : ∀ i, x.Boundary 0 i → s.stop ≤ i → s.start < i → next ≤ i)
    (h : Tiling a x next rest) : Tiling a x f (s :: rest) where
  isMatch := List.forall_mem_cons.mpr ⟨((matchFrom_iff hf).mp hs.isMatch).1, h.isMatch⟩
  longest := List.forall_mem_cons.mpr ⟨fun j hmatch =>
    hs.longest j ((matchFrom_iff hf).mpr ⟨hmatch, hs.isMatch.1.le⟩), h.longest⟩
  text_eq := List.forall_mem_cons.mpr ⟨hs.text_eq, h.text_eq⟩
  first_le := List.forall_mem_cons.mpr ⟨hs.isMatch.1.le, fun t ht => by
    have := h.first_le t ht
    have := hs.isMatch.1.le
    omega⟩
  ordered := by
    refine List.isChain_cons.mpr ⟨?_, h.ordered⟩
    intro t ht
    have := h.first_le t (List.mem_of_mem_head? ht)
    exact ⟨by omega, by omega⟩
  complete := fun i j hmatch hle => by
    have hleft := hs.leftmost i j ((matchFrom_iff hf).mpr ⟨hmatch, hle⟩)
    rcases Nat.eq_or_lt_of_le hleft with heq | hlt
    · exact ⟨s, List.mem_cons_self, Or.inl heq.symm⟩
    · rcases Nat.lt_or_ge i s.stop with hin | hout
      · exact ⟨s, List.mem_cons_self, Or.inr ⟨hlt, hin⟩⟩
      · obtain ⟨t, ht, hi⟩ := h.complete i j hmatch (hnext i hmatch.1 hout hlt)
        exact ⟨t, List.mem_cons_of_mem s ht, hi⟩

/-! ## Uniqueness -/

/-- The spans behind the first one are a tiling from the first offset at which they
may start. -/
theorem Tiling.tail (h : Tiling a x f (s :: rest)) :
    Tiling a x (max s.stop (s.start + 1)) rest where
  isMatch := (List.forall_mem_cons.mp h.isMatch).2
  longest := (List.forall_mem_cons.mp h.longest).2
  text_eq := (List.forall_mem_cons.mp h.text_eq).2
  first_le := fun t ht => by
    have hpair := (List.pairwise_cons.mp (List.isChain_iff_pairwise.mp h.ordered)).1 t ht
    exact Nat.max_le.mpr hpair
  ordered := (List.isChain_cons.mp h.ordered).2
  complete := fun i j hmatch hle => by
    have := h.first_le s List.mem_cons_self
    obtain ⟨t, ht, hi⟩ := h.complete i j hmatch (by omega)
    rcases List.mem_cons.mp ht with rfl | ht
    · omega
    · exact ⟨t, ht, hi⟩

/-- The first span starts where the first match does. -/
theorem Tiling.head_le (h : Tiling a x f (s :: rest)) (hmatch : a.MatchFrom x 0 i j)
    (hle : f ≤ i) : s.start ≤ i := by
  obtain ⟨t, ht, hi⟩ := h.complete i j hmatch hle
  have hst : s.start ≤ t.start := by
    rcases List.mem_cons.mp ht with rfl | ht
    · exact Nat.le_refl _
    · exact Nat.le_of_lt
        ((List.pairwise_cons.mp (List.isChain_iff_pairwise.mp h.ordered)).1 t ht).2
  omega

/-- A tiling with a span has a match, which no tiling without spans has. -/
theorem Tiling.not_nil (h : Tiling a x f (s :: rest)) : ¬ Tiling a x f [] := by
  intro hnil
  obtain ⟨t, ht, _⟩ := hnil.complete s.start s.stop (h.isMatch s List.mem_cons_self)
    (h.first_le s List.mem_cons_self)
  exact absurd ht List.not_mem_nil

/-- Two tilings have the same first span. -/
theorem Tiling.head_eq {t : Span} {rest' : List Span} (h : Tiling a x f (s :: rest))
    (h' : Tiling a x f (t :: rest')) : s = t := by
  have hs := h.isMatch s List.mem_cons_self
  have ht := h'.isMatch t List.mem_cons_self
  have hstart : s.start = t.start := Nat.le_antisymm
    (h.head_le ht (h'.first_le t List.mem_cons_self))
    (h'.head_le hs (h.first_le s List.mem_cons_self))
  have hstop : s.stop = t.stop := Nat.le_antisymm
    (h'.longest t List.mem_cons_self _ (hstart ▸ hs))
    (h.longest s List.mem_cons_self _ (hstart ▸ ht))
  have htext := h.text_eq s List.mem_cons_self
  have htext' := h'.text_eq t List.mem_cons_self
  rw [← hstart, ← hstop, ← htext] at htext'
  cases s
  cases t
  simp_all

theorem Tiling.unique {spans' : List Span} (h : Tiling a x f spans) (h' : Tiling a x f spans') :
    spans = spans' := by
  induction spans generalizing f spans' with
  | nil =>
      cases spans' with
      | nil => rfl
      | cons t rest' => exact absurd h h'.not_nil
  | cons s rest ih =>
      cases spans' with
      | nil => exact absurd h' h.not_nil
      | cons t rest' =>
          obtain rfl := h.head_eq h'
          rw [ih h.tail h'.tail]

/-! ## The scan -/

/-- Where a scan goes on behind a match: at the first boundary from which another
span may start. -/
theorem resumeAfter?_spec (hspan : a.MatchFrom x 0 s.start s.stop)
    (hnext : resumeAfter? x s = some next) :
    x.Boundary 0 next ∧ next ≤ x.length ∧ s.stop ≤ next ∧ s.start < next ∧
      ∀ i, x.Boundary 0 i → s.stop ≤ i → s.start < i → next ≤ i := by
  have hle := hspan.le
  have hlen := hspan.boundary.le_length (Nat.zero_le _)
  unfold resumeAfter? at hnext
  split at hnext
  · rename_i hlt
    cases hnext
    exact ⟨hspan.boundary, hlen, Nat.le_refl _, hlt, fun i _ hi _ => hi⟩
  · rename_i hempty
    split at hnext
    · rename_i inside
      cases hnext
      have hread := Text.reads_symbolAt inside
      have hgt := hread.lt
      refine ⟨.tail hspan.boundary ⟨_, hread⟩, hread.le_length, by omega, by omega, ?_⟩
      intro i hi hstop hstart
      exact ((hspan.boundary.of_le hi hstop).of_next ⟨_, hread⟩ (by omega)).le
    · cases hnext

/-- Where a scan ends, the match is empty and at the end of the text. -/
theorem resumeAfter?_eq_none (hspan : a.MatchFrom x 0 s.start s.stop)
    (hnone : resumeAfter? x s = none) : s.start = x.length ∧ s.stop = x.length := by
  have hle := hspan.le
  have hlen := hspan.boundary.le_length (Nat.zero_le _)
  unfold resumeAfter? at hnone
  split at hnone
  · cases hnone
  · split at hnone
    · cases hnone
    · exact ⟨by omega, by omega⟩

/-- A scan without ceiling, with enough fuel, gives a tiling.  Each span but the last
uses up a symbol of the text. -/
theorem findAllFrom_spec (ha : a.WellFormed) {fuel : Nat} {meter : Meter}
    (hf : x.Boundary 0 f) (hlen : f ≤ x.length) (hfuel : x.length < f + fuel)
    (hmeter : meter.limit = .infinity) :
    ∃ spans after, a.findAllFrom x fuel f meter = .ok (spans, after) ∧ Tiling a x f spans ∧
      spans.length ≤ (x.symbolsFrom f).length + 1 := by
  induction fuel generalizing f meter with
  | zero => omega
  | succ fuel ih =>
      obtain ⟨found, after, hfind, hafter, hnone, hsome⟩ := findFrom_spec ha hlen hmeter
      rw [findAllFrom, hfind]
      cases found with
      | none =>
          refine ⟨[], after, rfl, .nil ?_, Nat.zero_le _⟩
          intro i j hmatch hle
          exact hnone rfl i j ((matchFrom_iff hf).mpr ⟨hmatch, hle⟩)
      | some span =>
          have hspan := hsome span rfl
          have hmatch := ((matchFrom_iff hf).mp hspan.isMatch).1
          dsimp only
          cases hresume : resumeAfter? x span with
          | none =>
              obtain ⟨hstart, hstop⟩ := resumeAfter?_eq_none hmatch hresume
              refine ⟨[span], after, rfl, ?_, Nat.le_add_left 1 _⟩
              have hend : Tiling a x (x.length + 1) [] := .nil fun i j hm hi => by
                have := hm.1.le_length (Nat.zero_le _)
                omega
              exact .cons hf hspan (by omega) (by omega) (fun i _ _ hi => by omega) hend
          | some next =>
              obtain ⟨hnext, hnextlen, hstop, hstart, hfirst⟩ := resumeAfter?_spec hmatch hresume
              have hlt : f < next := Nat.lt_of_le_of_lt hspan.isMatch.1.le hstart
              obtain ⟨rest, final, hrest, htiling, hcount⟩ :=
                ih hnext hnextlen (by omega) hafter
              have hfewer := Text.length_symbolsFrom_lt (hf.of_le hnext (Nat.le_of_lt hlt)) hlt
              refine ⟨span :: rest, final, by dsimp only; rw [hrest], ?_, ?_⟩
              · exact .cons hf hspan hstop hstart hfirst htiling
              · rw [List.length_cons]
                omega

/-- Without ceilings, a scan gives a tiling of the text, which has at most one span more
than the text has symbols. -/
theorem findAll_spec (ha : a.WellFormed) (x : Text) :
    ∃ spans, a.findAll x .unlimited = .ok spans ∧ Tiling a x 0 spans ∧
      spans.length ≤ x.symbolCount + 1 := by
  have hstart : x.Boundary 0 0 := .refl
  have hfuel : x.length < 0 + (x.length + 1) := by omega
  have hmeter : (Meter.mk 0 .infinity).limit = .infinity := rfl
  obtain ⟨spans, after, hscan, htiling, hcount⟩ :=
    findAllFrom_spec ha hstart (Nat.zero_le _) hfuel hmeter
  refine ⟨spans, ?_, htiling, ?_⟩
  · rw [findAll, Meter.start_unlimited]
    dsimp only
    rw [hscan]
    rfl
  · rw [Text.symbolCount_eq]
    exact hcount

end Automaton

end RegexEngine
