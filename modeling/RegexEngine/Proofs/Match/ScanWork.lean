/-
# `Call.findAll` — the work of a scan

A scan makes one search after the other, each from the end of the match before.  A
search may read on behind the match that it finds, for as long as a run that started no
later is alive: only where there is none left, no longer match can follow.  What it has
read there, the next search reads again.

How much this is decides on the work of the scan.  If no search reads more than `k`
symbols behind its match (`SettlesWithin`), the scan reads the text once, and at most
`k + 1` symbols again for each match; this is linear in the text.  In any case the next
search has at least one symbol less before it, so that the steps are at most the symbol
transitions times `n (n + 1) / 2` for `n` symbols (`findAll_work`).

Nothing linear is enough in all cases.  In a text of `n` letters `a`, a scan with `a|a*b`
finds each of the letters, and each time it reads to the end of the text for a `b` that
does not come.  These are `n (n + 1) / 2` rounds with at least one step
(`le_steps_findAll_letters`), so that no constant times the symbol transitions times the
symbols is enough for every scan (`findAll_not_linear`).
-/
import RegexEngine.Proofs.Match.LinearWork
import RegexEngine.Proofs.Match.Tiling
import RegexEngine.Proofs.Match.Verbatim

namespace RegexEngine

namespace Text

variable {x : Text} {c i j : Nat}

/-- The number of symbols from an offset on. -/
def countFrom (x : Text) (i : Nat) : Nat := (x.symbolsFrom i).length

theorem countFrom_zero (x : Text) : x.countFrom 0 = x.symbolCount := x.symbolCount_eq.symm

theorem countFrom_of_ge (h : x.length ≤ i) : x.countFrom i = 0 := by
  rw [countFrom, symbolsFrom_of_ge h, List.length_nil]

theorem Reads.countFrom_eq (h : x.Reads i c j) : x.countFrom i = x.countFrom j + 1 := by
  rw [countFrom, h.symbolsFrom, List.length_cons, countFrom]

theorem Boundary.countFrom_lt (h : x.Boundary i j) (hlt : i < j) :
    x.countFrom j < x.countFrom i :=
  length_symbolsFrom_lt h hlt

theorem Boundary.countFrom_le (h : x.Boundary i j) : x.countFrom j ≤ x.countFrom i := by
  rcases Nat.eq_or_lt_of_le h.le with rfl | hlt
  · exact Nat.le_refl _
  · exact Nat.le_of_lt (h.countFrom_lt hlt)

end Text

namespace Automaton

variable {a : Automaton} {x : Text} {f p k : Nat} {s : Span} {meter after : Meter}
  {threads : List Thread} {best known : Option (Nat × Nat)}

/-! ## A search that settles -/

/-- Wherever a search starts, no run that starts at or before the match it finds goes on
for more than `k` symbols behind the end of that match. -/
def SettlesWithin (a : Automaton) (x : Text) (k : Nat) : Prop :=
  ∀ f s, x.Boundary 0 f → a.LeftmostLongest x f s →
    ∀ i q j, a.RunFrom x f i q j → i ≤ s.start → x.countFrom s.stop ≤ x.countFrom j + k

theorem start_le_of_mem_contenders {b : Nat × Nat} {t : Thread}
    (ht : t ∈ contenders (some b) threads) : t.start ≤ b.1 :=
  of_decide_eq_true (List.mem_filter.mp ht).2

/-- A match that ends where the search has been is not beaten by the match known. -/
theorem Best.start_eq (hknown : Best a x f (· ≤ p) known) (hs : a.LeftmostLongest x f s)
    (hstop : s.stop ≤ p) : ∃ b, known = some b ∧ b.1 = s.start := by
  obtain ⟨b, hb, hgood⟩ := hknown.complete s.start s.stop hs.isMatch hstop
  have hle := hs.leftmost b.1 b.2 (hknown.sound b hb).1
  exact ⟨b, hb, by omega⟩

/-- Where a search goes on, it is not far behind the match that it is going to give. -/
theorem SettlesWithin.countFrom_stop_le {live : Nat → Nat → Prop} (hk : a.SettlesWithin x k)
    (hf : x.Boundary 0 f) (hs : a.LeftmostLongest x f s) (hp : x.Boundary f p)
    (halive : Tracks a x f p live (contenders known threads) known)
    (hknown : Best a x f (· ≤ p) known)
    (hgo : ¬ (known.isSome && (contenders known threads).isEmpty) = true) :
    x.countFrom s.stop ≤ x.countFrom p + k := by
  rcases Nat.lt_or_ge p s.stop with hlt | hstop
  · have := ((hp.of_le hs.isMatch.boundary (Nat.le_of_lt hlt)).countFrom_le)
    omega
  · obtain ⟨b, rfl, hstart⟩ := hknown.start_eq hs hstop
    -- The match is known already, so it is a thread that keeps the search going.
    have hsome : contenders (some b) threads ≠ [] := by
      intro hnil
      exact hgo (by rw [hnil]; rfl)
    obtain ⟨t, ht⟩ := List.exists_mem_of_ne_nil _ hsome
    exact hk f s hf hs _ _ _ (halive.sound t ht) (hstart ▸ start_le_of_mem_contenders ht)

/-- The threads that arrive behind a symbol are in states of the automaton. -/
theorem Tracks.threadCost_le {live : Nat → Nat → Prop} (ha : a.WellFormed)
    (hp : x.Boundary f p) (h : Tracks a x f p live threads best) (known : Option (Nat × Nat)) :
    a.threadCost (contenders known (a.closeThreads x p (a.seedsAt p threads best))) ≤
      a.stats.symbolTransitions :=
  threadCost_contenders_le ha (fun _ hseed => (h.seed_runFrom hp hseed).lt_size ha) known

/-- A search that settles reads the symbols up to the end of its match, and at most
`k + 1` more. -/
theorem steps_searchFrom_settles (ha : a.WellFormed) (hk : a.SettlesWithin x k)
    (hf : x.Boundary 0 f) (hs : a.LeftmostLongest x f s) (hp : x.Boundary f p)
    (h : Tracks a x f p (a.Arrives x f p) threads best) (hbest : Best a x f (· < p) best)
    (hnear : x.countFrom s.stop ≤ x.countFrom p + k + 1) {found : Option (Nat × Nat)}
    (hsearch : a.searchFrom x p threads best meter = .ok (found, after)) :
    after.steps + a.stats.symbolTransitions * x.countFrom s.stop ≤
      meter.steps + a.stats.symbolTransitions * (x.countFrom p + k + 1) := by
  fun_induction searchFrom a x p threads best meter with
  | case1 p threads best meter =>
      obtain ⟨_, rfl⟩ := Prod.mk.inj (Except.ok.inj hsearch)
      exact Nat.add_le_add_left (Nat.mul_le_mul_left _ hnear) _
  | case2 => cases hsearch
  | case3 p threads best meter closed known alive hgo inside charged hcharge _ ih =>
      obtain ⟨halive, hknown⟩ := h.settle ha hp hbest
      have hread := Text.reads_symbolAt inside
      have hcount := hread.countFrom_eq
      have hle : x.countFrom s.stop ≤ x.countFrom p + k :=
        hk.countFrom_stop_le hf hs hp halive hknown hgo
      have hcost : a.threadCost alive ≤ a.stats.symbolTransitions := h.threadCost_le ha hp known
      have hcharged := Meter.steps_of_charge hcharge
      have hrest := ih (.tail hp ⟨_, hread⟩) (halive.step hp hread) (hknown.next hp hread)
        (by omega) hsearch
      rw [hcount, Nat.mul_succ]
      rw [Nat.add_right_comm _ 1 k]
      omega
  | case4 p threads best meter =>
      obtain ⟨_, rfl⟩ := Prod.mk.inj (Except.ok.inj hsearch)
      exact Nat.add_le_add_left (Nat.mul_le_mul_left _ hnear) _

/-! ## The scan -/

/-- A search reads no symbol in front of where it starts. -/
theorem steps_findFrom_le_countFrom (ha : a.WellFormed) {found : Option Span}
    (h : a.findFrom x f meter = .ok (found, after)) :
    after.steps ≤ meter.steps + a.stats.symbolTransitions * x.countFrom f := by
  rw [findFrom] at h
  split at h
  · cases h
    exact Nat.le_add_right _ _
  · split at h
    · cases h
    · rename_i hsearch
      cases h
      exact steps_searchFrom_le ha (List.forall_mem_nil _) hsearch

theorem steps_findFrom_settles (ha : a.WellFormed) (hk : a.SettlesWithin x k)
    (hf : x.Boundary 0 f) (hs : a.LeftmostLongest x f s)
    (h : a.findFrom x f meter = .ok (some s, after)) :
    after.steps + a.stats.symbolTransitions * x.countFrom s.stop ≤
      meter.steps + a.stats.symbolTransitions * (x.countFrom f + k + 1) := by
  rw [findFrom] at h
  split at h
  · cases h
  · split at h
    · cases h
    · rename_i hsearch
      obtain ⟨_, rfl⟩ := Prod.mk.inj (Except.ok.inj h)
      have hnear := hs.isMatch.boundary.countFrom_le
      exact steps_searchFrom_settles ha hk hf hs .refl (.init a x f) (.init a x f)
        (by omega) hsearch

/-- What a scan without ceiling does from a boundary on.  There is no match, or it finds
the leftmost longest one; and then it ends at the end of the text, or goes on behind. -/
theorem findAllFrom_cases (ha : a.WellFormed) (hf : x.Boundary 0 f) {fuel : Nat}
    {spans : List Span} (hmeter : meter.limit = .infinity)
    (h : a.findAllFrom x (fuel + 1) f meter = .ok (spans, after)) :
    (spans = [] ∧ a.findFrom x f meter = .ok (none, after) ∧ ∀ i j, ¬ a.MatchFrom x f i j) ∨
      ∃ s mid, a.findFrom x f meter = .ok (some s, mid) ∧ mid.limit = .infinity ∧
        a.LeftmostLongest x f s ∧
        ((resumeAfter? x s = none ∧ spans = [s] ∧ after = mid) ∨
          ∃ next rest, resumeAfter? x s = some next ∧ spans = s :: rest ∧
            a.findAllFrom x fuel next mid = .ok (rest, after)) := by
  have hlen := hf.le_length (Nat.zero_le _)
  obtain ⟨found, mid, hfind, hmid, hnone, hsome⟩ := findFrom_spec ha hlen hmeter
  rw [findAllFrom, hfind] at h
  cases found with
  | none =>
      cases h
      exact .inl ⟨rfl, hfind, hnone rfl⟩
  | some s =>
      refine .inr ⟨s, mid, hfind, hmid, hsome s rfl, ?_⟩
      dsimp only at h
      cases hresume : resumeAfter? x s with
      | none =>
          rw [hresume] at h
          cases h
          exact .inl ⟨rfl, rfl, rfl⟩
      | some next =>
          rw [hresume] at h
          dsimp only at h
          cases hrest : a.findAllFrom x fuel next mid with
          | error e =>
              rw [hrest] at h
              cases h
          | ok r =>
              rw [hrest] at h
              cases h
              exact .inr ⟨next, r.1, rfl, rfl, hrest⟩

/-- Where a scan goes on, it has at most the symbols behind the match before it, and at
least one less than before. -/
theorem countFrom_resume (hf : x.Boundary 0 f) (hs : a.LeftmostLongest x f s) {next : Nat}
    (hresume : resumeAfter? x s = some next) :
    x.Boundary 0 next ∧ x.countFrom next ≤ x.countFrom s.stop ∧
      x.countFrom next < x.countFrom f := by
  have hmatch := ((matchFrom_iff hf).mp hs.isMatch).1
  obtain ⟨hnext, _, hstop, hstart, _⟩ := resumeAfter?_spec hmatch hresume
  have hlt : f < next := Nat.lt_of_le_of_lt hs.isMatch.1.le hstart
  exact ⟨hnext, (hmatch.boundary.of_le hnext hstop).countFrom_le,
    (hf.of_le hnext (Nat.le_of_lt hlt)).countFrom_lt hlt⟩

/-- A scan that settles reads the text once, and `k + 1` symbols again for each match. -/
theorem steps_findAllFrom_settles (ha : a.WellFormed) (hk : a.SettlesWithin x k)
    (hf : x.Boundary 0 f) {fuel : Nat} {spans : List Span} (hmeter : meter.limit = .infinity)
    (h : a.findAllFrom x fuel f meter = .ok (spans, after)) :
    after.steps ≤ meter.steps +
      a.stats.symbolTransitions * (x.countFrom f + (k + 1) * spans.length) := by
  induction fuel generalizing f meter spans with
  | zero =>
      cases h
      exact Nat.le_add_right _ _
  | succ fuel ih =>
      rcases findAllFrom_cases ha hf hmeter h with
        ⟨rfl, hfind, _⟩ | ⟨s, mid, hfind, hmid, hs, hrest⟩
      · exact steps_findFrom_le_countFrom ha hfind
      · have hfirst := steps_findFrom_settles ha hk hf hs hfind
        rcases hrest with ⟨_, rfl, rfl⟩ | ⟨next, rest, hresume, rfl, hscan⟩
        · rw [List.length_singleton, Nat.mul_one]
          rw [Nat.add_assoc] at hfirst
          omega
        · obtain ⟨hnext, hle, _⟩ := countFrom_resume hf hs hresume
          have hbehind := ih hnext hmid hscan
          have hread := Nat.mul_le_mul_left a.stats.symbolTransitions hle
          rw [List.length_cons]
          simp only [Nat.mul_add, Nat.mul_one] at hfirst hbehind ⊢
          omega

/-- A search that reads `n` symbols fits in front of a scan that has fewer before it. -/
theorem add_two_mul_le_mul_succ {m n : Nat} (h : m < n) : m * (m + 1) + 2 * n ≤ n * (n + 1) := by
  nlinarith

/-- The searches of a scan start at least one symbol apart. -/
theorem steps_findAllFrom_le (ha : a.WellFormed) (hf : x.Boundary 0 f) {fuel : Nat}
    {spans : List Span} (hmeter : meter.limit = .infinity)
    (h : a.findAllFrom x fuel f meter = .ok (spans, after)) :
    2 * after.steps ≤ 2 * meter.steps +
      a.stats.symbolTransitions * (x.countFrom f * (x.countFrom f + 1)) := by
  induction fuel generalizing f meter spans with
  | zero =>
      cases h
      exact Nat.le_add_right _ _
  | succ fuel ih =>
      -- One search alone takes no more than the whole scan may.
      have hsingle : ∀ mid : Meter,
          mid.steps ≤ meter.steps + a.stats.symbolTransitions * x.countFrom f →
          2 * mid.steps ≤ 2 * meter.steps +
            a.stats.symbolTransitions * (x.countFrom f * (x.countFrom f + 1)) := by
        intro mid hmid
        have hdouble : 2 * x.countFrom f ≤ x.countFrom f * (x.countFrom f + 1) := by
          rcases Nat.eq_zero_or_pos (x.countFrom f) with hzero | hpos
          · rw [hzero]
          · have := add_two_mul_le_mul_succ hpos
            omega
        have := Nat.mul_le_mul_left a.stats.symbolTransitions hdouble
        rw [Nat.mul_left_comm] at this
        omega
      rcases findAllFrom_cases ha hf hmeter h with
        ⟨rfl, hfind, _⟩ | ⟨s, mid, hfind, hmid, hs, hrest⟩
      · exact hsingle after (steps_findFrom_le_countFrom ha hfind)
      · have hfirst := steps_findFrom_le_countFrom ha hfind
        rcases hrest with ⟨_, rfl, rfl⟩ | ⟨next, rest, hresume, rfl, hscan⟩
        · exact hsingle after hfirst
        · obtain ⟨hnext, _, hlt⟩ := countFrom_resume hf hs hresume
          have hbehind := ih hnext hmid hscan
          have hboth := Nat.mul_le_mul_left a.stats.symbolTransitions (add_two_mul_le_mul_succ hlt)
          rw [Nat.mul_add, Nat.mul_left_comm _ 2] at hboth
          omega

end Automaton

/-! ## Texts of one letter -/

/-- The text of `n` letters `a`. -/
def Text.letters (n : Nat) : Text := ⟨Array.replicate n 97⟩

namespace Text

variable {n i j c : Nat}

theorem length_letters (n : Nat) : (letters n).length = n := Array.size_replicate

theorem reads_letters_iff : (letters n).Reads i c j ↔ i < n ∧ c = 97 ∧ j = i + 1 := by
  have hat : ∀ inside : i < (letters n).length, (letters n).symbolAt i inside = 97 := by
    intro inside
    have hi : i < n := length_letters n ▸ inside
    have hdrop : (letters n).units.toList.drop i = 97 :: List.replicate (n - (i + 1)) 97 := by
      rw [letters, Array.toList_replicate, List.drop_replicate, ← List.replicate_succ]
      congr 1
      omega
    rw [symbolAt_of_drop inside hdrop]
    rfl
  constructor
  · rintro ⟨inside, rfl, rfl⟩
    rw [hat inside]
    exact ⟨length_letters n ▸ inside, rfl, rfl⟩
  · rintro ⟨hi, rfl, rfl⟩
    have inside : i < (letters n).length := (length_letters n).symm ▸ hi
    exact ⟨inside, hat inside, rfl⟩

theorem symbolCount_letters (n : Nat) : (letters n).symbolCount = n := by
  have hcount : ∀ k i, i + k = n → (letters n).countFrom i = k := by
    intro k
    induction k with
    | zero =>
        intro i hi
        exact countFrom_of_ge (by rw [length_letters]; omega)
    | succ k ih =>
        intro i hi
        have hread : (letters n).Reads i 97 (i + 1) :=
          reads_letters_iff.mpr ⟨by omega, rfl, rfl⟩
        rw [hread.countFrom_eq, ih (i + 1) (by omega)]
  rw [← countFrom_zero]
  exact hcount n 0 (Nat.zero_add n)

theorem boundary_letters (hle : i ≤ j) (hj : j ≤ n) : (letters n).Boundary i j := by
  induction j, hle using Nat.le_induction with
  | base => exact .refl
  | succ j _ ih => exact .tail (ih (by omega)) ⟨97, reads_letters_iff.mpr ⟨hj, rfl, rfl⟩⟩

end Text

/-- A loop takes all letters, and no run goes on behind the last one. -/
theorem Automaton.settlesWithin_star_letters (n : Nat) :
    (ofRegex (.star (.literal 97)) {}).SettlesWithin (.letters n) 0 := by
  intro f s hf hs i q j _ _
  have hfn : f ≤ n := Text.length_letters n ▸ hf.le_length (Nat.zero_le _)
  have hboundary := Text.boundary_letters hfn (Nat.le_refl n)
  have hletter : ∀ k l, (Text.letters n).Next k l →
      (Regex.literal 97).Spans {} (.letters n) k l := by
    rintro k l ⟨c, hread⟩
    obtain ⟨_, rfl, _⟩ := Text.reads_letters_iff.mp hread
    exact (Regex.spans_literal_iff rfl).mpr hread
  have hspans : (Regex.star (.literal 97)).Spans {} (.letters n) f n :=
    Relation.ReflTransGen.mono hletter f n hboundary
  have hwhole : (ofRegex (.star (.literal 97)) {}).MatchFrom (.letters n) f f n :=
    matchFrom_ofRegex_iff.mpr ⟨.refl, hspans⟩
  have hstart := Nat.le_antisymm (hs.leftmost f n hwhole) hs.isMatch.1.le
  have hstop := hs.longest n (hstart.symm ▸ hwhole)
  rw [Text.countFrom_of_ge (by rwa [Text.length_letters])]
  exact Nat.zero_le _

/-! ## The whole call -/

/-- The work of a scan.  If its searches settle within `k` symbols, the symbols of the
text and `k + 1` more for each match are read, each at most once by each symbol
transition; as there is at most one match more than there are symbols, this is linear.
In any case the steps are at most the symbol transitions times `n (n + 1) / 2`. -/
theorem findAll_work {a : Automaton} (ha : a.WellFormed) (x : Text) :
    (∃ spans, a.findAll x .unlimited = .ok spans ∧ ∀ k, a.SettlesWithin x k →
      Call.findAll.Within a x
        (a.stats.symbolTransitions * (x.symbolCount + (k + 1) * spans.length))) ∧
    (∀ k, a.SettlesWithin x k → Call.findAll.Within a x
      ((k + 2) * a.stats.symbolTransitions * (x.symbolCount + 1))) ∧
    Call.findAll.Within a x
      (a.stats.symbolTransitions * (x.symbolCount * (x.symbolCount + 1) / 2)) := by
  have hstart : x.Boundary 0 0 := .refl
  have hfuel : x.length < 0 + (x.length + 1) := by omega
  have hmeter : (Meter.mk 0 .infinity).limit = .infinity := rfl
  obtain ⟨spans, after, hscan, _, hcount⟩ :=
    Automaton.findAllFrom_spec ha hstart (Nat.zero_le _) hfuel hmeter
  have hsteps : Call.findAll.steps a x = after.steps := by
    rw [Call.steps, Call.work, hscan]
  have hsettles : ∀ k, a.SettlesWithin x k → Call.findAll.steps a x ≤
      a.stats.symbolTransitions * (x.symbolCount + (k + 1) * spans.length) := by
    intro k hk
    have := Automaton.steps_findAllFrom_settles ha hk hstart hmeter hscan
    rwa [x.countFrom_zero, Nat.zero_add, ← hsteps] at this
  refine ⟨⟨spans, ?_, fun k hk => .of_steps_le (hsettles k hk)⟩, fun k hk => .of_steps_le ?_,
    .of_steps_le ?_⟩
  · rw [Automaton.findAll, Meter.start_unlimited]
    dsimp only
    rw [hscan]
    rfl
  · have hspans : spans.length ≤ x.symbolCount + 1 := x.symbolCount_eq ▸ hcount
    calc Call.findAll.steps a x
        ≤ a.stats.symbolTransitions * (x.symbolCount + (k + 1) * spans.length) := hsettles k hk
      _ ≤ a.stats.symbolTransitions * (x.symbolCount + (k + 1) * (x.symbolCount + 1)) := by
          gcongr
      _ ≤ a.stats.symbolTransitions * ((k + 2) * (x.symbolCount + 1)) := by
          gcongr
          nlinarith
      _ = (k + 2) * a.stats.symbolTransitions * (x.symbolCount + 1) := by ring
  · have htwice := Automaton.steps_findAllFrom_le ha hstart hmeter hscan
    have heven := Nat.two_mul_div_two_of_even (Nat.even_mul_succ_self x.symbolCount)
    rw [x.countFrom_zero, Nat.mul_zero, Nat.zero_add, ← hsteps, ← heven,
      Nat.mul_left_comm] at htwice
    exact Nat.le_of_mul_le_mul_left htwice (by decide)

/-- A scan that finds all of the text at once, and then the end. -/
theorem loop_findAll_work :
    (Automaton.ofRegex (.star (.literal 97)) {}).WellFormed ∧
      (Automaton.ofRegex (.star (.literal 97)) {}).SettlesWithin (.letters 12) 0 ∧
      Call.findAll.Within (.ofRegex (.star (.literal 97)) {}) (.letters 12) (2 * 1 * 13) := by
  have hwell := Automaton.wellFormed_ofRegex (.star (.literal 97)) {}
  have hsettles := Automaton.settlesWithin_star_letters 12
  have hbound : (0 + 2) * (Automaton.ofRegex (.star (.literal 97)) {}).stats.symbolTransitions *
      ((Text.letters 12).symbolCount + 1) = 2 * 1 * 13 := by
    rw [Text.symbolCount_letters]
    decide
  exact ⟨hwell, hsettles, hbound ▸ (findAll_work hwell (.letters 12)).2.1 0 hsettles⟩

/-! ## Texts that are read again and again -/

namespace Automaton

variable {a : Automaton} {x : Text} {f p : Nat} {meter after : Meter} {threads : List Thread}
  {best : Option (Nat × Nat)}

/-- From every boundary a search finds the symbol there and nothing longer, although a run
that started there stays alive to the end of the text. -/
structure Rereads (a : Automaton) (x : Text) : Prop where
  exists_match : ∀ f, x.Boundary 0 f → f < x.length → ∃ i j, a.MatchFrom x f i j
  short : ∀ f s, x.Boundary 0 f → a.LeftmostLongest x f s → s.start = f ∧ x.Next f s.stop
  alive : ∀ f p, x.Boundary 0 f → x.Boundary f p → p < x.length →
    ∃ q, a.RunFrom x f f q p ∧ 0 < a.symbolDegree q

theorem symbolDegree_le_threadCost {t : Thread} (ht : t ∈ threads) :
    a.symbolDegree t.state ≤ a.threadCost threads := by
  induction ht with
  | head => exact Nat.le_add_right _ _
  | tail _ _ ih => exact Nat.le_trans ih (Nat.le_add_left _ _)

/-- A run from where the search starts is never outrun, so it keeps its search going and
costs at least one step for each symbol. -/
theorem Rereads.le_steps_searchFrom (ha : a.WellFormed) (hx : a.Rereads x)
    (hf : x.Boundary 0 f) (hp : x.Boundary f p)
    (h : Tracks a x f p (a.Arrives x f p) threads best) (hbest : Best a x f (· < p) best)
    {found : Option (Nat × Nat)}
    (hsearch : a.searchFrom x p threads best meter = .ok (found, after)) :
    meter.steps + x.countFrom p ≤ after.steps := by
  -- The thread of a run from `f` is among those that are left.
  have hthread : ∀ {p threads best}, x.Boundary f p → p < x.length →
      Tracks a x f p (a.RunFrom x f · · p) threads best → Best a x f (· ≤ p) best →
      ∃ t ∈ threads, 0 < a.symbolDegree t.state := by
    intro p threads best hp inside h hbest
    obtain ⟨q, hrun, hdegree⟩ := hx.alive f p hf hp inside
    rcases h.complete f q hrun with ⟨t, ht, rfl, _⟩ | ⟨b, hb, hlt⟩
    · exact ⟨t, ht, hdegree⟩
    · exact absurd (hbest.sound b hb).1.1.le (Nat.not_le_of_lt hlt)
  fun_induction searchFrom a x p threads best meter with
  | case1 p threads best meter closed known alive hstop =>
      obtain ⟨_, rfl⟩ := Prod.mk.inj (Except.ok.inj hsearch)
      obtain ⟨halive, hknown⟩ := h.settle ha hp hbest
      rcases Nat.lt_or_ge p x.length with inside | outside
      · obtain ⟨t, ht, _⟩ := hthread hp inside halive hknown
        have hnil : alive = [] := List.isEmpty_iff.mp (Bool.and_eq_true_iff.mp hstop).2
        have hmem : t ∈ alive := ht
        rw [hnil] at hmem
        exact absurd hmem List.not_mem_nil
      · rw [Text.countFrom_of_ge outside, Nat.add_zero]
  | case2 => cases hsearch
  | case3 p threads best meter closed known alive _ inside charged hcharge _ ih =>
      obtain ⟨halive, hknown⟩ := h.settle ha hp hbest
      have hread := Text.reads_symbolAt inside
      obtain ⟨t, ht, hdegree⟩ := hthread hp inside halive hknown
      have hcost : a.symbolDegree t.state ≤ a.threadCost alive := symbolDegree_le_threadCost ht
      have hcharged := Meter.steps_of_charge hcharge
      have hcount := hread.countFrom_eq
      have := ih (.tail hp ⟨_, hread⟩) (halive.step hp hread) (hknown.next hp hread) hsearch
      omega
  | case4 p threads best meter closed known alive _ outside =>
      obtain ⟨_, rfl⟩ := Prod.mk.inj (Except.ok.inj hsearch)
      rw [Text.countFrom_of_ge (Nat.le_of_not_lt outside), Nat.add_zero]

theorem Rereads.le_steps_findFrom (ha : a.WellFormed) (hx : a.Rereads x)
    (hf : x.Boundary 0 f) {found : Option Span}
    (h : a.findFrom x f meter = .ok (found, after)) :
    meter.steps + x.countFrom f ≤ after.steps := by
  rw [findFrom, if_neg (Nat.not_lt.mpr (hf.le_length (Nat.zero_le _)))] at h
  split at h
  · cases h
  · rename_i hsearch
    cases h
    exact hx.le_steps_searchFrom ha hf .refl (.init a x f) (.init a x f) hsearch

/-- Each search of the scan goes to the end of the text, and leaves but one symbol to the
next one. -/
theorem Rereads.le_steps_findAllFrom (ha : a.WellFormed) (hx : a.Rereads x)
    (hf : x.Boundary 0 f) {fuel : Nat} {spans : List Span} (hmeter : meter.limit = .infinity)
    (hfuel : x.length < f + fuel) (h : a.findAllFrom x fuel f meter = .ok (spans, after)) :
    2 * meter.steps + x.countFrom f * (x.countFrom f + 1) ≤ 2 * after.steps := by
  induction fuel generalizing f meter spans with
  | zero =>
      cases h
      rw [Text.countFrom_of_ge (by omega), Nat.zero_mul, Nat.add_zero]
  | succ fuel ih =>
      rcases findAllFrom_cases ha hf hmeter h with
        ⟨rfl, hfind, hnone⟩ | ⟨s, mid, hfind, hmid, hs, hrest⟩
      · -- No match is left only where no symbol is.
        have hfirst := hx.le_steps_findFrom ha hf hfind
        rcases Nat.lt_or_ge f x.length with inside | outside
        · obtain ⟨i, j, hmatch⟩ := hx.exists_match f hf inside
          exact absurd hmatch (hnone i j)
        · rw [Text.countFrom_of_ge outside] at hfirst ⊢
          omega
      · have hfirst := hx.le_steps_findFrom ha hf hfind
        obtain ⟨hstart, c, hread⟩ := hx.short f s hf hs
        have hnext : resumeAfter? x s = some s.stop := if_pos (hstart.symm ▸ hread.lt)
        rcases hrest with ⟨hresume, _⟩ | ⟨next, rest, hresume, rfl, hscan⟩
        · rw [hnext] at hresume
          cases hresume
        · obtain rfl := Option.some.inj (hnext.symm.trans hresume)
          have hbehind := ih (.tail hf ⟨c, hread⟩) hmid (by have := hread.lt; omega) hscan
          rw [hread.countFrom_eq] at hfirst ⊢
          nlinarith

theorem Rereads.le_steps_findAll (ha : a.WellFormed) (hx : a.Rereads x) :
    x.symbolCount * (x.symbolCount + 1) ≤ 2 * Call.findAll.steps a x := by
  have hstart : x.Boundary 0 0 := .refl
  have hfuel : x.length < 0 + (x.length + 1) := by omega
  have hmeter : (Meter.mk 0 .infinity).limit = .infinity := rfl
  obtain ⟨spans, after, hscan, _⟩ := findAllFrom_spec ha hstart (Nat.zero_le _) hfuel hmeter
  have := hx.le_steps_findAllFrom ha hstart hmeter hfuel hscan
  rw [x.countFrom_zero, Nat.mul_zero, Nat.zero_add] at this
  rwa [Call.steps, Call.work, hscan]

end Automaton

/-! ## A letter, or letters in front of another one -/

/-- The expression `a|a*b`. -/
def Regex.letterOrRun : Regex :=
  .alternate (.literal 97) (.concat (.star (.literal 97)) (.literal 98))

namespace Automaton

variable {n f i j p : Nat}

/-- Among letters `a` alone, only the first branch matches. -/
theorem matchFrom_letterOrRun_iff :
    (ofRegex .letterOrRun {}).MatchFrom (.letters n) f i j ↔
      (Text.letters n).Boundary f i ∧ (Text.letters n).Reads i 97 j := by
  rw [matchFrom_ofRegex_iff]
  refine and_congr_right fun _ => ?_
  constructor
  · rintro (h | ⟨k, _, h⟩)
    · exact (Regex.spans_literal_iff rfl).mp h
    · obtain ⟨_, hc, _⟩ := Text.reads_letters_iff.mp ((Regex.spans_literal_iff rfl).mp h)
      cases hc
  · intro h
    exact .inl ((Regex.spans_literal_iff rfl).mpr h)

/-- The loop in front of the `b` takes all letters, and stays where it can take another. -/
theorem path_letterOrRun (hp : (Text.letters n).Boundary f p) :
    (ofRegex .letterOrRun {}).Path (.letters n) ⟨0, f⟩ ⟨5, p⟩ := by
  have hloop : ∀ i, (ofRegex .letterOrRun {}).Step (.letters n) ⟨3, i⟩ ⟨5, i⟩ := fun i =>
    .silent (.epsilon (by decide))
  induction hp with
  | refl =>
      have hbranch : (ofRegex .letterOrRun {}).Step (.letters n) ⟨0, f⟩ ⟨3, f⟩ :=
        .silent (.epsilon (by decide))
      exact .tail (.single hbranch) (hloop f)
  | @tail i j _ hnext ih =>
      obtain ⟨c, hread⟩ := hnext
      obtain ⟨_, rfl, _⟩ := Text.reads_letters_iff.mp hread
      have hletter : (ofRegex .letterOrRun {}).Step (.letters n) ⟨5, i⟩ ⟨6, j⟩ :=
        .symbol (s := .single 97) (by decide) hread (by decide)
      have hback : (ofRegex .letterOrRun {}).Step (.letters n) ⟨6, j⟩ ⟨3, j⟩ :=
        .silent (.epsilon (by decide))
      exact .tail (.tail (.tail ih hletter) hback) (hloop j)

theorem rereads_letters (n : Nat) : (ofRegex .letterOrRun {}).Rereads (.letters n) where
  exists_match := by
    intro f hf inside
    have hread : (Text.letters n).Reads f 97 (f + 1) :=
      Text.reads_letters_iff.mpr ⟨Text.length_letters n ▸ inside, rfl, rfl⟩
    exact ⟨f, f + 1, matchFrom_letterOrRun_iff.mpr ⟨.refl, hread⟩⟩
  short := by
    intro f s hf hs
    obtain ⟨hle, hread⟩ := matchFrom_letterOrRun_iff.mp hs.isMatch
    obtain ⟨hstart, _, _⟩ := Text.reads_letters_iff.mp hread
    -- There is a letter in front of a later match, which is a match as well.
    have hfirst : (Text.letters n).Reads f 97 (f + 1) :=
      Text.reads_letters_iff.mpr ⟨Nat.lt_of_le_of_lt hle.le hstart, rfl, rfl⟩
    have heq := Nat.le_antisymm
      (hs.leftmost f (f + 1) (matchFrom_letterOrRun_iff.mpr ⟨.refl, hfirst⟩)) hle.le
    exact ⟨heq, 97, heq ▸ hread⟩
  alive := by
    intro f p hf hp inside
    exact ⟨5, ⟨.refl, path_letterOrRun hp⟩, by decide⟩

theorem le_steps_findAll_letters (n : Nat) :
    n * (n + 1) ≤ 2 * Call.findAll.steps (ofRegex .letterOrRun {}) (.letters n) := by
  have h := (rereads_letters n).le_steps_findAll (wellFormed_ofRegex _ _)
  rwa [Text.symbolCount_letters] at h

end Automaton

/-- No bound of the kind that a single search has holds for scans: four times the symbol
transitions times one more than the symbols is not enough for twelve letters, and no
other factor is enough for all texts of letters. -/
theorem findAll_not_linear :
    (Pattern.parse (.ofString "a|a*b") {} = .ok ⟨.ofString "a|a*b", .letterOrRun, {}⟩ ∧
      4 * (Automaton.ofRegex .letterOrRun {}).stats.symbolTransitions *
        ((Text.letters 12).symbolCount + 1) = 156 ∧
      Call.findAll.steps (.ofRegex .letterOrRun {}) (.letters 12) = 168 ∧
      (Automaton.ofRegex .letterOrRun {}).findAll (.letters 12) ⟨.infinity, .ofNat 156⟩ =
        .error ⟨.steps, .ofNat 156, 157⟩) ∧
    ¬ ∃ factor, ∀ r flags x, Call.findAll.steps (.ofRegex r flags) x ≤
      factor * (Automaton.ofRegex r flags).stats.symbolTransitions * (x.symbolCount + 1) := by
  refine ⟨⟨by decide +kernel, by decide +kernel, by decide +kernel, by decide +kernel⟩, ?_⟩
  rintro ⟨factor, hall⟩
  have htransitions : (Automaton.ofRegex .letterOrRun {}).stats.symbolTransitions = 3 := by
    decide
  have hmany := Automaton.le_steps_findAll_letters (6 * factor + 1)
  have hfew := hall .letterOrRun {} (.letters (6 * factor + 1))
  rw [htransitions, Text.symbolCount_letters] at hfew
  nlinarith

end RegexEngine
