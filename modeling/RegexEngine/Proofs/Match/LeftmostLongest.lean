/-
# `Automaton.find` is leftmost and longest

A search keeps one thread per state, and so forgets most runs.  What it keeps of
them is told by two invariants at every position.

* The threads *track* the runs (`Tracks`): every thread stands for a run, and every
  run is matched by a thread in the same state that did not start later, unless the
  best match known starts before the run.  A run that has lost its thread cannot
  give the leftmost match: from the state where it lost it, the earlier thread goes
  on in the same way.
* The match known is the *best* one seen (`Best`): no match that ends at a position
  already seen starts earlier, or ends later from the same start.

Closing, improving the match, dropping threads and reading a symbol keep these
invariants; each is one lemma below.  Where the search stops, whatever match is
still unseen would have to pass the present position, and so has a thread there or
starts behind the match known.
-/
import RegexEngine.Match.Search
import RegexEngine.Proofs.Match.Acceptance
import RegexEngine.Proofs.Number.Value

namespace RegexEngine

namespace Automaton

/-! ## What a search is to find -/

/-- A run that started at the boundary `s` is in state `q` at offset `p`. -/
def RunFrom (a : Automaton) (x : Text) (f s q p : Nat) : Prop :=
  x.Boundary f s ∧ a.Path x ⟨a.start, s⟩ ⟨q, p⟩

/-- A run that started at the boundary `i` accepts at offset `j`; boundaries are
taken from offset `f` on. -/
def MatchFrom (a : Automaton) (x : Text) (f i j : Nat) : Prop := a.RunFrom x f i a.accept j

/-- The span is a match, no match starts in front of it, and no match from the same
start ends behind it. -/
structure LeftmostLongest (a : Automaton) (x : Text) (f : Nat) (span : Span) : Prop where
  isMatch : a.MatchFrom x f span.start span.stop
  leftmost : ∀ i j, a.MatchFrom x f i j → span.start ≤ i
  longest : ∀ j, a.MatchFrom x f span.start j → j ≤ span.stop
  text_eq : span.text = x.slice span.start span.stop

variable {a : Automaton} {x : Text} {f s q p i j : Nat}

theorem RunFrom.le (h : a.RunFrom x f s q p) : s ≤ p := h.2.le

theorem RunFrom.boundary (h : a.RunFrom x f s q p) : x.Boundary f p := h.1.trans h.2.boundary

theorem RunFrom.lt_size (ha : a.WellFormed) (h : a.RunFrom x f s q p) : q < a.size :=
  h.2.lt ha ha.start_lt

theorem RunFrom.reaches {r : Nat} (h : a.RunFrom x f s q p) (hr : a.Reaches x p q r) :
    a.RunFrom x f s r p :=
  ⟨h.1, h.2.trans hr.path⟩

/-- A run arrives in state `t` at offset `p` by reading a symbol. -/
def Arrives (a : Automaton) (x : Text) (f p s t : Nat) : Prop :=
  ∃ q i c, a.RunFrom x f s q i ∧ x.Reads i c p ∧ t ∈ a.symbolTargets (a.flags.variants c) q

theorem Arrives.runFrom (h : a.Arrives x f p s q) : a.RunFrom x f s q p := by
  obtain ⟨r, i, c, hrun, hread, ht⟩ := h
  exact ⟨hrun.1, .tail hrun.2 (.of_mem_symbolTargets hread ht)⟩

/-! ## The invariants -/

/-- The match known starts before `s`. -/
def Outruns (best : Option (Nat × Nat)) (s : Nat) : Prop := ∃ b, best = some b ∧ b.1 < s

/-- The match known is at least as good as one from `s` to `e`. -/
def AsGoodAs (best : Option (Nat × Nat)) (s e : Nat) : Prop :=
  ∃ b, best = some b ∧ (b.1 < s ∨ (b.1 = s ∧ e ≤ b.2))

theorem Outruns.asGoodAs {best : Option (Nat × Nat)} {e : Nat} (h : Outruns best s) :
    AsGoodAs best s e := by
  obtain ⟨b, hb, hlt⟩ := h
  exact ⟨b, hb, Or.inl hlt⟩

/-- The threads at offset `p` ascend and stand for runs, and they match every live
run that the match known does not outrun. -/
structure Tracks (a : Automaton) (x : Text) (f p : Nat) (live : Nat → Nat → Prop)
    (threads : List Thread) (best : Option (Nat × Nat)) : Prop where
  sorted : threads.Pairwise (·.start ≤ ·.start)
  sound : ∀ t ∈ threads, a.RunFrom x f t.start t.state p
  complete : ∀ s q, live s q → (∃ t ∈ threads, t.state = q ∧ t.start ≤ s) ∨ Outruns best s

/-- The match known is one, and the best of those that end where `seen` says. -/
structure Best (a : Automaton) (x : Text) (f : Nat) (seen : Nat → Prop)
    (best : Option (Nat × Nat)) : Prop where
  sound : ∀ b, best = some b → a.MatchFrom x f b.1 b.2 ∧ seen b.2
  complete : ∀ s e, a.MatchFrom x f s e → seen e → AsGoodAs best s e

variable {threads : List Thread} {best : Option (Nat × Nat)}

/-! ## Closing -/

theorem mem_seedsAt {t : Thread} (ht : t ∈ a.seedsAt p threads best) :
    t ∈ threads ∨ t = ⟨a.start, p⟩ := by
  unfold seedsAt at ht
  split at ht
  · exact (List.mem_append.mp ht).imp_right List.mem_singleton.mp
  · exact Or.inl ht

theorem mem_seedsAt_of_mem {t : Thread} (ht : t ∈ threads) : t ∈ a.seedsAt p threads best := by
  unfold seedsAt
  split
  · exact List.mem_append_left _ ht
  · exact ht

/-- Seeds are in states of the automaton if the threads that arrive are. -/
theorem lt_of_mem_seedsAt (ha : a.WellFormed) (hthreads : ∀ t ∈ threads, t.state < a.size) :
    ∀ seed ∈ a.seedsAt p threads best, seed.state < a.size := by
  intro seed hseed
  rcases mem_seedsAt hseed with hseed | rfl
  · exact hthreads seed hseed
  · exact ha.start_lt

/-- Seeds stand for runs: a new one for the run that starts here. -/
theorem Tracks.seed_runFrom {live : Nat → Nat → Prop} (h : Tracks a x f p live threads best)
    (hp : x.Boundary f p) {t : Thread} (ht : t ∈ a.seedsAt p threads best) :
    a.RunFrom x f t.start t.state p := by
  rcases mem_seedsAt ht with ht | rfl
  · exact h.sound t ht
  · exact ⟨hp, .refl⟩

/-- Seeds ascend: a new one starts last. -/
theorem Tracks.pairwise_seedsAt {live : Nat → Nat → Prop}
    (h : Tracks a x f p live threads best) :
    (a.seedsAt p threads best).Pairwise (·.start ≤ ·.start) := by
  unfold seedsAt
  split
  · refine List.pairwise_append.mpr ⟨h.sorted, List.pairwise_singleton _ _, ?_⟩
    intro t ht t' ht'
    rw [List.mem_singleton.mp ht']
    exact (h.sound t ht).le
  · exact h.sorted

/-- Closed threads track all runs, those included that start here: a search that
starts none here knows a match that starts earlier. -/
theorem Tracks.close (ha : a.WellFormed) (hp : x.Boundary f p)
    (h : Tracks a x f p (a.Arrives x f p) threads best) (hbest : Best a x f (· < p) best) :
    Tracks a x f p (a.RunFrom x f · · p) (a.closeThreads x p (a.seedsAt p threads best)) best := by
  have hseeds : ∀ seed ∈ a.seedsAt p threads best, seed.state < a.size := fun seed hseed =>
    (h.seed_runFrom hp hseed).lt_size ha
  have hsorted := h.pairwise_seedsAt
  refine ⟨pairwise_closeThreads ha hseeds hsorted, ?_, ?_⟩
  · intro t ht
    obtain ⟨seed, hseed, hreach, hstart⟩ := exists_seed_of_mem_closeThreads ha hseeds ht
    rw [← hstart]
    exact (h.seed_runFrom hp hseed).reaches hreach
  · intro s q hrun
    rcases hrun.2.last_symbol with ⟨heq, hreach⟩ | ⟨r, i, c, t, hpath, hread, ht, hreach⟩
    · obtain rfl : s = p := heq
      cases hb : best with
      | none =>
          have hmem : (⟨a.start, s⟩ : Thread) ∈ a.seedsAt s threads none :=
            List.mem_append_right _ List.mem_cons_self
          rw [hb] at hseeds hsorted
          exact Or.inl (exists_mem_closeThreads ha hseeds hsorted hmem hreach)
      | some b =>
          obtain ⟨hmatch, hlt⟩ := hbest.sound b hb
          exact Or.inr ⟨b, rfl, Nat.lt_of_le_of_lt hmatch.le hlt⟩
    · rcases h.complete s t ⟨r, i, c, ⟨hrun.1, hpath⟩, hread, ht⟩ with ⟨th, hth, rfl, hle⟩ | hout
      · obtain ⟨th', hth', hstate, hle'⟩ :=
          exists_mem_closeThreads ha hseeds hsorted (mem_seedsAt_of_mem hth) hreach
        exact Or.inl ⟨th', hth', hstate, Nat.le_trans hle' hle⟩
      · exact Or.inr hout

/-! ## Improving the match -/

/-- The match known never starts later than before. -/
theorem Outruns.improve (h : Outruns best s) : Outruns (a.improve p threads best) s := by
  obtain ⟨b, rfl, hlt⟩ := h
  unfold Automaton.improve
  split
  · exact ⟨b, rfl, hlt⟩
  · rename_i heq
    cases heq
  · rename_i t start stop _ heq
    cases heq
    split
    · exact ⟨_, rfl, by dsimp only at *; omega⟩
    · exact ⟨_, rfl, hlt⟩

/-- The first accepting thread has the least start of all. -/
theorem Tracks.find_accept {live : Nat → Nat → Prop} (h : Tracks a x f p live threads best)
    {t : Thread} (ht : t ∈ threads) (haccept : t.state = a.accept) :
    ∃ t', threads.find? (·.state == a.accept) = some t' ∧ t'.start ≤ t.start := by
  cases hfind : threads.find? (·.state == a.accept) with
  | none =>
      have := List.find?_eq_none.mp hfind t ht
      simp [haccept] at this
  | some t' =>
      refine ⟨t', rfl, ?_⟩
      obtain ⟨_, front, back, rfl, hfront⟩ := List.find?_eq_some_iff_append.mp hfind
      rcases List.mem_append.mp ht with ht | ht
      · have := hfront t ht
        simp [haccept] at this
      · obtain ⟨_, hback, _⟩ := List.pairwise_append.mp h.sorted
        rcases List.mem_cons.mp ht with rfl | ht
        · exact Nat.le_refl _
        · exact (List.pairwise_cons.mp hback).1 t ht

/-- The match known stays the best if it outruns the matches that end here. -/
theorem Best.keep (hbest : Best a x f (· < p) best)
    (hhere : ∀ s, a.MatchFrom x f s p → Outruns best s) : Best a x f (· ≤ p) best := by
  refine ⟨?_, ?_⟩
  · intro b hb
    obtain ⟨hmatch, hlt⟩ := hbest.sound b hb
    exact ⟨hmatch, Nat.le_of_lt hlt⟩
  · intro s e hmatch he
    rcases Nat.lt_or_eq_of_le he with hlt | rfl
    · exact hbest.complete s e hmatch hlt
    · exact (hhere s hmatch).asGoodAs

/-- A match that ends here replaces the one known if none of both starts earlier. -/
theorem Best.replace {t : Nat} (hbest : Best a x f (· < p) best) (hmatch : a.MatchFrom x f t p)
    (hhere : ∀ s, a.MatchFrom x f s p → t ≤ s ∨ Outruns best s)
    (hle : ∀ b, best = some b → t ≤ b.1) : Best a x f (· ≤ p) (some (t, p)) := by
  refine ⟨?_, ?_⟩
  · intro b hb
    cases hb
    exact ⟨hmatch, Nat.le_refl p⟩
  · intro s e hmatch' he
    have hstart : t ≤ s := by
      rcases Nat.lt_or_eq_of_le he with hlt | rfl
      · obtain ⟨b, hb, hgood⟩ := hbest.complete s e hmatch' hlt
        have := hle b hb
        omega
      · rcases hhere s hmatch' with hts | ⟨b, hb, hlt⟩
        · exact hts
        · exact Nat.le_trans (hle b hb) (Nat.le_of_lt hlt)
    exact ⟨_, rfl, (Nat.lt_or_eq_of_le hstart).imp_right (⟨·, he⟩)⟩

/-- Improving takes the matches into account that end here. -/
theorem Best.improve (hbest : Best a x f (· < p) best)
    (h : Tracks a x f p (a.RunFrom x f · · p) threads best) :
    Best a x f (· ≤ p) (a.improve p threads best) := by
  -- A match that ends here has an accepting thread, unless it is outrun.
  have hhere : ∀ s, a.MatchFrom x f s p →
      (∃ t, threads.find? (·.state == a.accept) = some t ∧ t.start ≤ s) ∨ Outruns best s := by
    intro s hmatch
    rcases h.complete s a.accept hmatch with ⟨t, ht, haccept, hle⟩ | hout
    · obtain ⟨t', hfind, hle'⟩ := h.find_accept ht haccept
      exact Or.inl ⟨t', hfind, Nat.le_trans hle' hle⟩
    · exact Or.inr hout
  unfold Automaton.improve
  cases hfind : threads.find? (·.state == a.accept) with
  | none =>
      refine hbest.keep ?_
      intro s hmatch
      rcases hhere s hmatch with ⟨t, hsome, _⟩ | hout
      · rw [hfind] at hsome
        cases hsome
      · exact hout
  | some t =>
      have hstate : t.state = a.accept := by simpa using List.find?_some hfind
      have hmatch : a.MatchFrom x f t.start p := by
        have hrun := h.sound t (List.mem_of_find?_eq_some hfind)
        rwa [hstate] at hrun
      have hfirst : ∀ s, a.MatchFrom x f s p → t.start ≤ s ∨ Outruns best s := by
        intro s hmatch'
        rcases hhere s hmatch' with ⟨t', hsome, hle⟩ | hout
        · rw [hfind] at hsome
          cases hsome
          exact Or.inl hle
        · exact Or.inr hout
      cases hb : best with
      | none =>
          rw [hb] at hbest hfirst
          exact hbest.replace hmatch hfirst (fun b hb => by cases hb)
      | some b =>
          rw [hb] at hbest hfirst
          show Best a x f (· ≤ p) (if t.start ≤ b.1 then some (t.start, p) else some b)
          split
          · rename_i hle
            refine hbest.replace hmatch hfirst ?_
            intro b' hb'
            cases hb'
            exact hle
          · rename_i hgt
            refine hbest.keep ?_
            intro s hmatch'
            rcases hfirst s hmatch' with hle | hout
            · exact ⟨b, rfl, Nat.lt_of_lt_of_le (Nat.lt_of_not_le hgt) hle⟩
            · exact hout

/-! ## Dropping threads -/

theorem mem_contenders_of_le (known : Option (Nat × Nat)) {t : Thread} (ht : t ∈ threads) :
    t ∈ contenders known threads ∨ Outruns known t.start := by
  cases known with
  | none => exact Or.inl ht
  | some b =>
      by_cases hle : t.start ≤ b.1
      · exact Or.inl (List.mem_filter.mpr ⟨ht, decide_eq_true hle⟩)
      · exact Or.inr ⟨b, rfl, Nat.lt_of_not_le hle⟩

theorem contenders_sublist (known : Option (Nat × Nat)) (threads : List Thread) :
    (contenders known threads).Sublist threads := by
  cases known with
  | none => exact .refl _
  | some b => exact List.filter_sublist

/-- The threads that are dropped are outrun by the match known. -/
theorem Tracks.contend {live : Nat → Nat → Prop} {known : Option (Nat × Nat)}
    (h : Tracks a x f p live threads best) (hknown : ∀ s, Outruns best s → Outruns known s) :
    Tracks a x f p live (contenders known threads) known := by
  refine ⟨h.sorted.sublist (contenders_sublist known threads), ?_, ?_⟩
  · intro t ht
    exact h.sound t ((contenders_sublist known threads).mem ht)
  · intro s q hlive
    rcases h.complete s q hlive with ⟨t, ht, hstate, hle⟩ | hout
    · rcases mem_contenders_of_le known ht with hmem | ⟨b, hb, hlt⟩
      · exact Or.inl ⟨t, hmem, hstate, hle⟩
      · exact Or.inr ⟨b, hb, Nat.lt_of_lt_of_le hlt hle⟩
    · exact Or.inr (hknown s hout)

/-! ## Reading a symbol -/

theorem mem_stepThreads {variants : List Nat} {t : Thread} :
    t ∈ a.stepThreads variants threads ↔
      ∃ t' ∈ threads, t'.start = t.start ∧ t.state ∈ a.symbolTargets variants t'.state := by
  simp only [stepThreads, List.mem_flatMap, List.mem_map]
  constructor
  · rintro ⟨t', ht', q, hq, rfl⟩
    exact ⟨t', ht', rfl, hq⟩
  · rintro ⟨t', ht', hstart, hq⟩
    exact ⟨t', ht', t.state, hq, by rw [hstart]⟩

/-- Threads go on in states of the automaton. -/
theorem lt_of_mem_stepThreads {c : Nat} (ha : a.WellFormed) :
    ∀ t ∈ a.stepThreads (a.flags.variants c) threads, t.state < a.size := by
  intro t ht
  obtain ⟨_, _, _, ht⟩ := mem_stepThreads.mp ht
  exact lt_of_mem_symbolTargets ha ht

theorem pairwise_stepThreads (variants : List Nat)
    (h : threads.Pairwise (·.start ≤ ·.start)) :
    (a.stepThreads variants threads).Pairwise (·.start ≤ ·.start) := by
  induction h with
  | nil => exact .nil
  | @cons t rest hfirst _ ih =>
      refine List.pairwise_append.mpr ⟨?_, ih, ?_⟩
      · exact List.pairwise_map.mpr (List.pairwise_of_forall (fun _ _ => Nat.le_refl _))
      · intro u hu u' hu'
        obtain ⟨q, _, rfl⟩ := List.mem_map.mp hu
        obtain ⟨t', ht', hstart, _⟩ := mem_stepThreads.mp hu'
        rw [← hstart]
        exact hfirst t' ht'

/-- Behind a symbol the threads track the runs that arrive there. -/
theorem Tracks.step {c j : Nat} (hp : x.Boundary f p)
    (h : Tracks a x f p (a.RunFrom x f · · p) threads best) (hread : x.Reads p c j) :
    Tracks a x f j (a.Arrives x f j) (a.stepThreads (a.flags.variants c) threads) best := by
  refine ⟨pairwise_stepThreads _ h.sorted, ?_, ?_⟩
  · intro t ht
    obtain ⟨t', ht', hstart, hq⟩ := mem_stepThreads.mp ht
    have hrun := h.sound t' ht'
    rw [← hstart]
    exact ⟨hrun.1, .tail hrun.2 (.of_mem_symbolTargets hread hq)⟩
  · rintro s t ⟨q, i, d, hrun, hread', ht⟩
    obtain rfl : i = p := Text.Next.unique_start hrun.boundary hp ⟨d, hread'⟩ ⟨c, hread⟩
    obtain ⟨rfl, _⟩ := hread'.unique hread
    rcases h.complete s q hrun with ⟨t', ht', rfl, hle⟩ | hout
    · exact Or.inl ⟨⟨t, t'.start⟩, mem_stepThreads.mpr ⟨t', ht', rfl, ht⟩, rfl, hle⟩
    · exact Or.inr hout

/-! ## The search -/

/-- Where no thread is left, or no text, all matches have been seen. -/
theorem Best.done (h : Tracks a x f p (a.RunFrom x f · · p) threads best)
    (hp : x.Boundary f p) (hbest : Best a x f (· ≤ p) best)
    (hstop : (best.isSome ∧ threads = []) ∨ x.length ≤ p) (hf : f ≤ x.length) :
    Best a x f (fun _ => True) best := by
  refine ⟨fun b hb => ⟨(hbest.sound b hb).1, trivial⟩, ?_⟩
  intro s e hmatch _
  by_cases he : e ≤ p
  · exact hbest.complete s e hmatch he
  · rcases hstop with ⟨hsome, hnil⟩ | hend
    · obtain ⟨b, hb⟩ := Option.isSome_iff_exists.mp hsome
      by_cases hs : s ≤ p
      · -- The match passes this position, where nothing tracks it any more.
        obtain ⟨m, hfront, _⟩ := hmatch.2.through (hmatch.1.of_le hp hs) (Nat.le_of_not_le he)
        rcases h.complete s m ⟨hmatch.1, hfront⟩ with ⟨t, ht, _⟩ | hout
        · rw [hnil] at ht
          exact absurd ht List.not_mem_nil
        · exact hout.asGoodAs
      · obtain ⟨hmatch', hle⟩ := hbest.sound b hb
        have := hmatch'.le
        exact ⟨b, hb, Or.inl (by omega)⟩
    · have := hmatch.boundary.le_length hf
      omega

/-- No match ends inside a symbol. -/
theorem Best.next {c : Nat} (hp : x.Boundary f p) (hread : x.Reads p c j)
    (hbest : Best a x f (· ≤ p) best) : Best a x f (· < j) best := by
  refine ⟨?_, ?_⟩
  · intro b hb
    obtain ⟨hmatch, hle⟩ := hbest.sound b hb
    exact ⟨hmatch, Nat.lt_of_le_of_lt hle hread.lt⟩
  · intro s e hmatch he
    refine hbest.complete s e hmatch ?_
    by_contra hlt
    have hpe := hp.of_le hmatch.boundary (by omega)
    have := (hpe.of_next ⟨c, hread⟩ (by omega)).le
    omega

/-- What one round of the search does at a position: the threads that are left track
all runs, and the match known is the best that ends up to here. -/
theorem Tracks.settle (ha : a.WellFormed) (hp : x.Boundary f p)
    (h : Tracks a x f p (a.Arrives x f p) threads best) (hbest : Best a x f (· < p) best) :
    let closed := a.closeThreads x p (a.seedsAt p threads best)
    let known := a.improve p closed best
    Tracks a x f p (a.RunFrom x f · · p) (contenders known closed) known ∧
      Best a x f (· ≤ p) known := by
  intro closed known
  have hclosed := h.close ha hp hbest
  exact ⟨hclosed.contend fun s hout => hout.improve, hbest.improve hclosed⟩

/-- A search without ceiling gives an answer, which is the best match of all. -/
theorem searchFrom_spec (ha : a.WellFormed) {meter : Meter} (hf : f ≤ x.length)
    (hp : x.Boundary f p) (hmeter : meter.limit = .infinity)
    (h : Tracks a x f p (a.Arrives x f p) threads best) (hbest : Best a x f (· < p) best) :
    ∃ known after, a.searchFrom x p threads best meter = .ok (known, after) ∧
      after.limit = .infinity ∧ Best a x f (fun _ => True) known := by
  fun_induction searchFrom a x p threads best meter with
  | case1 p threads best meter closed known alive hstop =>
      obtain ⟨halive, hknown⟩ := h.settle ha hp hbest
      obtain ⟨hsome, hempty⟩ := Bool.and_eq_true_iff.mp hstop
      exact ⟨_, _, rfl, hmeter,
        hknown.done halive hp (Or.inl ⟨hsome, List.isEmpty_iff.mp hempty⟩) hf⟩
  | case2 p threads best meter closed known alive _ inside e hcharge =>
      rw [Meter.charge_of_infinity hmeter] at hcharge
      cases hcharge
  | case3 p threads best meter closed known alive _ inside charged hcharge _ ih =>
      obtain ⟨halive, hknown⟩ := h.settle ha hp hbest
      have hread := Text.reads_symbolAt inside
      rw [Meter.charge_of_infinity hmeter] at hcharge
      cases hcharge
      exact ih (.tail hp ⟨_, hread⟩) hmeter (halive.step hp hread) (hknown.next hp hread)
  | case4 p threads best meter closed known alive _ outside =>
      obtain ⟨halive, hknown⟩ := h.settle ha hp hbest
      exact ⟨_, _, rfl, hmeter, hknown.done halive hp (Or.inr (Nat.le_of_not_lt outside)) hf⟩

/-- A search begins without threads, as no run arrives where boundaries begin. -/
theorem Tracks.init (a : Automaton) (x : Text) (f : Nat) :
    Tracks a x f f (a.Arrives x f f) [] none := by
  refine ⟨.nil, fun t ht => absurd ht List.not_mem_nil, ?_⟩
  rintro s q ⟨r, i, c, hrun, hread, _⟩
  have := hrun.boundary.le
  have := hread.lt
  omega

theorem Best.init (a : Automaton) (x : Text) (f : Nat) : Best a x f (· < f) none := by
  refine ⟨fun b hb => absurd hb.symm (Option.some_ne_none b), ?_⟩
  intro s e hmatch he
  have := hmatch.boundary.le
  omega

/-- A search without ceiling from an offset gives the leftmost longest match from
there on, or none if there is no match. -/
theorem findFrom_spec (ha : a.WellFormed) {meter : Meter} (hf : f ≤ x.length)
    (hmeter : meter.limit = .infinity) :
    ∃ found after, a.findFrom x f meter = .ok (found, after) ∧ after.limit = .infinity ∧
      (found = none → ∀ i j, ¬ a.MatchFrom x f i j) ∧
      ∀ span, found = some span → a.LeftmostLongest x f span := by
  obtain ⟨known, after, hsearch, hafter, hbest⟩ :=
    searchFrom_spec ha hf .refl hmeter (.init a x f) (.init a x f)
  refine ⟨known.map fun b => ⟨b.1, b.2, x.slice b.1 b.2⟩, after, ?_, hafter, ?_, ?_⟩
  · rw [findFrom, if_neg (Nat.not_lt.mpr hf), hsearch]
  · intro hnone i j hmatch
    obtain ⟨b, hb, _⟩ := hbest.complete i j hmatch trivial
    rw [Option.map_eq_none_iff.mp hnone] at hb
    cases hb
  · intro span hspan
    obtain ⟨b, hb, rfl⟩ := Option.map_eq_some_iff.mp hspan
    -- Whatever match there is, the one known is at least as good.
    have hgood : ∀ i j, a.MatchFrom x f i j → b.1 < i ∨ (b.1 = i ∧ j ≤ b.2) := by
      intro i j hmatch
      obtain ⟨b', hb', hgood⟩ := hbest.complete i j hmatch trivial
      rwa [Option.some.inj (hb.symm.trans hb')]
    refine ⟨(hbest.sound b hb).1, ?_, ?_, rfl⟩
    · intro i j hmatch
      show b.1 ≤ i
      have := hgood i j hmatch
      omega
    · intro j hmatch
      show j ≤ b.2
      have := hgood b.1 j hmatch
      omega

/-! ## Calls -/

/-- What a call does with the offset that its number stands for. -/
theorem find_unlimited (a : Automaton) (x : Text) (offset : Number) :
    a.find x offset .unlimited =
      match offset.startOffset? with
      | none => .ok none
      | some f => (a.findFrom x f ⟨0, .infinity⟩).map (·.1) := by
  rw [find, Meter.start_unlimited]
  cases offset.startOffset? <;> rfl

/-- Without ceilings, a search from a number gives no span exactly if the offset that
the number stands for is behind the text or has no match from there on; and a span
that it gives is the leftmost longest match from there on. -/
theorem find_leftmost_longest (a : Automaton) (ha : a.WellFormed) (x : Text) (offset : Number) :
    ∃ found, a.find x offset .unlimited = .ok found ∧
      (found = none ↔ x.length < offset.firstOffset ∨
        ∀ f : ℕ, offset.firstOffset = f → ∀ i j, ¬ a.MatchFrom x f i j) ∧
      ∀ span, found = some span →
        ∃ f : ℕ, offset.firstOffset = f ∧ a.LeftmostLongest x f span := by
  rw [find_unlimited]
  cases hstart : offset.startOffset? with
  | none =>
      rw [Number.startOffset?_eq_none_iff] at hstart
      refine ⟨none, rfl, iff_of_true rfl (Or.inl ?_), fun span hspan => by cases hspan⟩
      rw [hstart]
      exact ENat.natCast_lt_top _
  | some f =>
      rw [Number.startOffset?_eq_some_iff] at hstart
      have hiff : ∀ g : ℕ, offset.firstOffset = g ↔ g = f := fun g => by
        rw [hstart, Nat.cast_inj, eq_comm]
      simp only [hiff, forall_eq, exists_eq_left]
      rw [hstart, Nat.cast_lt]
      rcases Nat.lt_or_ge x.length f with hlt | hf
      · refine ⟨none, ?_, iff_of_true rfl (Or.inl hlt), fun span hspan => by cases hspan⟩
        rw [findFrom, if_pos hlt]
        rfl
      · have hmeter : (Meter.mk 0 .infinity).limit = .infinity := rfl
        obtain ⟨found, after, hfind, _, hnone, hspan⟩ := findFrom_spec ha hf hmeter
        refine ⟨found, by rw [hfind]; rfl, ⟨fun h => Or.inr (hnone h), ?_⟩, hspan⟩
        rintro (hlt | hno)
        · omega
        · cases found with
          | none => rfl
          | some span => exact absurd (hspan span rfl).isMatch (hno _ _)

/-- An automaton of `(a|b$)+`, with cycles and with a transition out of the accepting
state. -/
def looping : Automaton where
  states := #[
    [.symbol (.single 'a'.toNat) 1, .symbol (.single 'b'.toNat) 2],
    [.epsilon 0, .epsilon 1],
    [.assert .stop 1, .epsilon 2]]
  start := 0
  accept := 1
  flags := {}

theorem looping_find_leftmost_longest :
    looping.WellFormed ∧
      looping.LeftmostLongest (.ofString "baabxab") 0 ⟨1, 3, .ofString "aa"⟩ := by
  have hwell : looping.WellFormed := by decide
  have hrun : looping.find (.ofString "baabxab") (.ofNat 0) .unlimited =
      .ok (some ⟨1, 3, .ofString "aa"⟩) := by decide +kernel
  have hfirst : Number.firstOffset (.ofNat 0) = (0 : ℕ) := by
    rw [← Number.startOffset?_eq_some_iff]
    rfl
  obtain ⟨found, hfind, _, hspan⟩ :=
    find_leftmost_longest looping hwell (.ofString "baabxab") (.ofNat 0)
  have hfound := Except.ok.inj (hfind.symm.trans hrun)
  obtain ⟨f, hf, hleft⟩ := hspan _ hfound
  obtain rfl : f = 0 := Nat.cast_inj.mp (hf.symm.trans hfirst)
  exact ⟨hwell, hleft⟩

end Automaton

end RegexEngine
