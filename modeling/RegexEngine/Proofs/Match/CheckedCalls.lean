/-
# `Checked.find` — calls that stay inside of the text and of the automaton

The calls once more, with every access checked.  A symbol is read where the cursor is,
which must be in front of the end of the text; a thread is moved by the transitions of
its state, which must be one; and a scan must have moved on before it searches again.
Anything else is a trap, and none is met: without ceilings each call is the library's
(`accepts_agree`, `find_agree`, `findAll_agree`, `test_agree`), for every automaton
whose transitions stay inside of it, every text, and every number as an offset.

The checked scan has no fuel either: it goes on for as long as there is text.  So the
tiling that a scan gives is the answer of a loop that ends by itself
(`Automaton.findAll_unique_tiling`).

What guards a read stands elsewhere in each of the loops.  A run goes over the
characters of the text, and none of them is empty.  A search asks for the end before it
reads.  A scan reads a symbol behind an empty match only, and only in front of the end;
and it goes on behind a match, which is in front of nothing that it has passed.
-/
import RegexEngine.Proofs.Automaton.Lookup
import RegexEngine.Proofs.Match.Metering
import RegexEngine.Proofs.Match.Tiling

namespace RegexEngine

namespace Text

/-- The characters of a text, each of them a text. -/
def characters (x : Text) : List Text := x.symbols.map fun c => .ofSymbols [c]

variable {x : Text} {i c : Nat}

/-- A symbol is written as a text that it is read from again, as the whole of it. -/
theorem reads_ofSymbols_singleton (hc : c ≤ Symbol.last) :
    (ofSymbols [c]).Reads 0 c (ofSymbols [c]).length := by
  have hsymbols : (ofSymbols [c]).symbolsFrom 0 = [c] := by
    rw [symbolsFrom_zero]
    exact symbols_ofSymbols (List.forall_mem_singleton.mpr hc) (List.isChain_singleton c)
  obtain ⟨j, hread, hrest⟩ := exists_reads_of_symbolsFrom hsymbols
  rwa [(symbolsFrom_eq_nil_iff hread.le_length).mp hrest] at hread

theorem le_last_of_reads {j : Nat} (h : x.Reads i c j) : c ≤ Symbol.last := by
  have hmem : c ∈ x.symbolsFrom i := h.symbolsFrom ▸ List.mem_cons_self
  exact Symbol.le_last_of_mem_ofUnits hmem

end Text

namespace Checked

variable {a : Automaton} {x : Text} {p f : Nat} {threads : List Thread}
  {best : Option (Nat × Nat)} {meter : Meter}

/-! ## Calls -/

/-- Run over the characters that are left, from the closed set of states at a position. -/
def runFrom (a : Automaton) (x : Text) (position : Nat) (states : List Nat) :
    List Text → Except Trap Bool
  | [] => .ok (states.contains a.accept)
  | char :: rest => do
      let c ← char.readAt 0
      let variants ← variants a.flags c
      let targets ← collect (symbolTargets a variants) states
      let next ← closure a x (position + char.length) targets
      if next.isEmpty then return false else runFrom a x (position + char.length) next rest

/-- Whether the automaton accepts the whole text. -/
def accepts (a : Automaton) (x : Text) : Except Trap Bool := do
  let states ← closure a x 0 [a.start]
  runFrom a x 0 states x.characters

/-- Where the threads are behind a symbol with the given variants. -/
def stepThreads (a : Automaton) (variants : List Nat) (threads : List Thread) :
    Except Trap (List Thread) :=
  collect (fun t => (symbolTargets a variants t.state).map (·.map (⟨·, t.start⟩))) threads

/-- Search on from a position, with the threads that arrive there and the best match
known in front of it. -/
def searchFrom (a : Automaton) (x : Text) (position : Nat) (threads : List Thread)
    (best : Option (Nat × Nat)) : Except Trap (Option (Nat × Nat)) := do
  let closed ← closeThreads a x position (a.seedsAt position threads best)
  let known := a.improve position closed best
  let alive := Automaton.contenders known closed
  if known.isSome && alive.isEmpty then return known
  else if _ended : x.length ≤ position then return known
  else
    let c ← x.readAt position
    let variants ← variants a.flags c
    let next ← stepThreads a variants alive
    searchFrom a x (position + Symbol.width c) next known
termination_by x.length - position
decreasing_by
  have := Symbol.width_pos c
  omega

/-- The leftmost longest match at or behind an offset. -/
def findFrom (a : Automaton) (x : Text) (offset : Nat) : Except Trap (Option Span) :=
  if x.length < offset then return none
  else do
    let best ← searchFrom a x offset [] none
    return best.map fun (start, stop) => ⟨start, stop, x.slice start stop⟩

/-- Where the search behind a match resumes. -/
def resumeAfter? (x : Text) (span : Span) : Except Trap (Option Nat) :=
  if span.start < span.stop then return some span.stop
  else if span.stop < x.length then do
    let c ← x.readAt span.stop
    return some (span.stop + Symbol.width c)
  else return none

/-- The matches at or behind an offset, none overlapping another. -/
def findAllFrom (a : Automaton) (x : Text) (offset : Nat) : Except Trap (List Span) := do
  if _behind : x.length < offset then return []
  else
    match ← findFrom a x offset with
    | none => return []
    | some span =>
        match ← resumeAfter? x span with
        | none => return [span]
        | some next =>
            if _onward : offset < next then
              let rest ← findAllFrom a x next
              return span :: rest
            else throw (.stalled offset)
termination_by x.length + 1 - offset

/-- The leftmost longest match at or behind an offset that a caller gives. -/
def find (a : Automaton) (x : Text) (offset : Number) : Except Trap (Option Span) :=
  match offset.startOffset? with
  | none => return none
  | some start => findFrom a x start

/-- All matches from left to right, none overlapping another. -/
def findAll (a : Automaton) (x : Text) : Except Trap (List Span) := findAllFrom a x 0

/-- Whether any part of the text matches. -/
def test (a : Automaton) (x : Text) : Except Trap Bool := do
  let found ← find a x (.ofNat 0)
  return found.isSome

/-- Both computations end, the one without a trap and the other one within its ceilings,
and give the same answer. -/
def Agree {α : Type} (checked : Except Trap α) (call : Except LimitError α) : Prop :=
  ∃ answer, checked = .ok answer ∧ call = .ok answer

/-! ## Runs -/

/-- A run without ceiling, from states of the automaton, does not trap. -/
theorem runFrom_eq (ha : a.WellFormed) {states cs : List Nat} (hcs : ∀ c ∈ cs, c ≤ Symbol.last)
    (hstates : ∀ q ∈ states, q < a.size) (hmeter : meter.limit = .infinity) :
    ∃ b after, a.runFrom x p states meter cs = .ok (b, after) ∧
      runFrom a x p states (cs.map fun c => .ofSymbols [c]) = .ok b := by
  induction cs generalizing p states meter with
  | nil => exact ⟨_, _, rfl, rfl⟩
  | cons c rest ih =>
      obtain ⟨hc, hrest⟩ := List.forall_mem_cons.mp hcs
      have hchar := Text.reads_ofSymbols_singleton hc
      have hwidth : (Text.ofSymbols [c]).length = Symbol.width c := by
        rw [hchar.stop_eq, Nat.zero_add]
      have htargets : ∀ t ∈ states.flatMap (a.symbolTargets (a.flags.variants c)), t < a.size :=
        fun t ht => Automaton.lt_of_mem_flatMap_symbolTargets ha ht
      have hcollect : collect (symbolTargets a (a.flags.variants c)) states =
          .ok (states.flatMap (a.symbolTargets (a.flags.variants c))) :=
        collect_eq fun q hq => symbolTargets_eq (hstates q hq)
      rw [Automaton.runFrom_cons, Meter.charge_of_infinity hmeter, List.map_cons, runFrom,
        hchar.readAt, ok_bind, variants_eq hc, ok_bind, hcollect, ok_bind, hwidth,
        closure_eq ha htargets, ok_bind]
      dsimp only [Except.bind]
      split
      · exact ⟨_, _, rfl, rfl⟩
      · exact ih hrest (fun q hq => Automaton.lt_of_mem_closure ha htargets hq) hmeter

theorem accepts_agree (ha : a.WellFormed) (x : Text) :
    Agree (accepts a x) (a.accepts x .unlimited) := by
  have hstart : ∀ q ∈ [a.start], q < a.size := List.forall_mem_singleton.mpr ha.start_lt
  have hmeter : (Meter.mk 0 .infinity).limit = .infinity := rfl
  obtain ⟨b, after, hrun, hchecked⟩ := runFrom_eq (x := x) (p := 0) ha
    (fun c hc => Text.le_last_of_mem_symbols (x := x) hc)
    (fun q hq => Automaton.lt_of_mem_closure ha hstart hq) hmeter
  refine ⟨b, ?_, ?_⟩
  · rw [accepts, closure_eq ha hstart, ok_bind]
    exact hchecked
  · rw [Automaton.accepts, Meter.start_unlimited]
    dsimp only
    rw [Automaton.run, hrun]
    rfl

-- A transition out of the automaton is a trap.
example : accepts ⟨#[[.epsilon 7]], 0, 0, {}⟩ .empty = .error (.noState 7) := by decide +kernel

/-! ## Searches -/

theorem stepThreads_eq {variants : List Nat} (hthreads : ∀ t ∈ threads, t.state < a.size) :
    stepThreads a variants threads = .ok (a.stepThreads variants threads) :=
  collect_eq fun t ht => by
    rw [symbolTargets_eq (hthreads t ht)]
    rfl

/-- A search without ceiling, from threads in states of the automaton, does not trap. -/
theorem searchFrom_eq (ha : a.WellFormed) (best : Option (Nat × Nat))
    (hthreads : ∀ t ∈ threads, t.state < a.size) (hmeter : meter.limit = .infinity) :
    ∃ known after, a.searchFrom x p threads best meter = .ok (known, after) ∧
      after.limit = .infinity ∧ searchFrom a x p threads best = .ok known := by
  fun_induction Automaton.searchFrom a x p threads best meter with
  | case1 p threads best meter closed known alive hstop =>
      refine ⟨_, _, rfl, hmeter, ?_⟩
      rw [searchFrom, closeThreads_eq ha (Automaton.lt_of_mem_seedsAt ha hthreads), ok_bind]
      exact if_pos hstop
  | case2 p threads best meter closed known alive _ inside e hcharge =>
      rw [Meter.charge_of_infinity hmeter] at hcharge
      cases hcharge
  | case3 p threads best meter closed known alive hstop inside charged hcharge _ ih =>
      have hseeds : ∀ seed ∈ a.seedsAt p threads best, seed.state < a.size :=
        Automaton.lt_of_mem_seedsAt ha hthreads
      have halive : ∀ t ∈ alive, t.state < a.size := by
        intro t ht
        obtain ⟨seed, hseed, hreach, _⟩ := Automaton.exists_seed_of_mem_closeThreads ha hseeds
          ((Automaton.contenders_sublist known closed).mem ht)
        exact hreach.lt ha (hseeds seed hseed)
      have hread := Text.reads_symbolAt inside
      rw [Meter.charge_of_infinity hmeter] at hcharge
      cases hcharge
      obtain ⟨found, after, hsearch, hafter, hchecked⟩ :=
        ih (Automaton.lt_of_mem_stepThreads ha) hmeter
      refine ⟨found, after, hsearch, hafter, ?_⟩
      rw [searchFrom, closeThreads_eq ha hseeds, ok_bind]
      dsimp only
      rw [if_neg hstop, dif_neg (Nat.not_le.mpr inside), hread.readAt, ok_bind,
        variants_eq (Text.le_last_of_reads hread), ok_bind, stepThreads_eq halive, ok_bind]
      exact hchecked
  | case4 p threads best meter closed known alive hstop outside =>
      refine ⟨_, _, rfl, hmeter, ?_⟩
      rw [searchFrom, closeThreads_eq ha (Automaton.lt_of_mem_seedsAt ha hthreads), ok_bind]
      dsimp only
      rw [if_neg hstop, dif_pos (Nat.le_of_not_lt outside)]
      rfl

theorem findFrom_eq (ha : a.WellFormed) (hmeter : meter.limit = .infinity) :
    ∃ found after, a.findFrom x f meter = .ok (found, after) ∧ after.limit = .infinity ∧
      findFrom a x f = .ok found := by
  rw [Automaton.findFrom, findFrom]
  split
  · exact ⟨none, meter, rfl, hmeter, rfl⟩
  · obtain ⟨known, after, hsearch, hafter, hchecked⟩ := searchFrom_eq (x := x) (p := f) ha none
      (List.forall_mem_nil _) hmeter
    rw [hsearch, hchecked]
    exact ⟨_, _, rfl, hafter, rfl⟩

theorem find_agree (ha : a.WellFormed) (x : Text) (offset : Number) :
    Agree (find a x offset) (a.find x offset .unlimited) := by
  rw [Automaton.find_unlimited, find]
  cases offset.startOffset? with
  | none => exact ⟨none, rfl, rfl⟩
  | some start =>
      have hmeter : (Meter.mk 0 .infinity).limit = .infinity := rfl
      obtain ⟨found, after, hfind, _, hchecked⟩ := findFrom_eq (x := x) (f := start) ha hmeter
      dsimp only
      rw [hfind]
      exact ⟨found, hchecked, rfl⟩

theorem test_agree (ha : a.WellFormed) (x : Text) :
    Agree (test a x) (a.test x .unlimited) := by
  obtain ⟨found, hchecked, hfind⟩ := find_agree ha x (.ofNat 0)
  rw [Automaton.test, hfind, test, hchecked]
  exact ⟨_, rfl, rfl⟩

/-! ## Scans -/

theorem resumeAfter?_eq (span : Span) :
    resumeAfter? x span = .ok (Automaton.resumeAfter? x span) := by
  rw [resumeAfter?, Automaton.resumeAfter?]
  split
  · rfl
  · split
    · rename_i inside
      rw [(Text.reads_symbolAt inside).readAt, ok_bind]
      rfl
    · rfl

/-- A scan without ceiling from a boundary, with enough fuel, does not trap: it has
always moved on when it searches again. -/
theorem findAllFrom_eq (ha : a.WellFormed) {fuel : Nat} (hf : x.Boundary 0 f)
    (hlen : f ≤ x.length) (hfuel : x.length < f + fuel) (hmeter : meter.limit = .infinity) :
    ∃ spans after, a.findAllFrom x fuel f meter = .ok (spans, after) ∧
      findAllFrom a x f = .ok spans := by
  induction fuel generalizing f meter with
  | zero => omega
  | succ fuel ih =>
      obtain ⟨found, after, hfind, hafter, hchecked⟩ := findFrom_eq (x := x) (f := f) ha hmeter
      obtain ⟨_, _, hfind', _, _, hleftmost⟩ := Automaton.findFrom_spec ha hlen hmeter
      obtain ⟨rfl, rfl⟩ := Prod.mk.inj (Except.ok.inj (hfind.symm.trans hfind'))
      rw [Automaton.findAllFrom, hfind, findAllFrom, dif_neg (Nat.not_lt.mpr hlen), hchecked,
        ok_bind]
      cases found with
      | none => exact ⟨[], after, rfl, rfl⟩
      | some span =>
          have hspan := hleftmost span rfl
          have hmatch := ((Automaton.matchFrom_iff hf).mp hspan.isMatch).1
          dsimp only
          rw [resumeAfter?_eq, ok_bind]
          cases hresume : Automaton.resumeAfter? x span with
          | none => exact ⟨[span], after, rfl, rfl⟩
          | some next =>
              obtain ⟨hnext, hnextlen, _, hstart, _⟩ :=
                Automaton.resumeAfter?_spec hmatch hresume
              have hlt : f < next := Nat.lt_of_le_of_lt hspan.isMatch.1.le hstart
              obtain ⟨rest, final, hrest, hrest'⟩ := ih hnext hnextlen (by omega) hafter
              dsimp only
              rw [hrest, dif_pos hlt, hrest', ok_bind]
              exact ⟨span :: rest, final, rfl, rfl⟩

theorem findAll_agree (ha : a.WellFormed) (x : Text) :
    Agree (findAll a x) (a.findAll x .unlimited) := by
  have hstart : x.Boundary 0 0 := .refl
  have hfuel : x.length < 0 + (x.length + 1) := by omega
  have hmeter : (Meter.mk 0 .infinity).limit = .infinity := rfl
  obtain ⟨spans, after, hscan, hchecked⟩ :=
    findAllFrom_eq ha hstart (Nat.zero_le _) hfuel hmeter
  refine ⟨spans, hchecked, ?_⟩
  rw [Automaton.findAll, Meter.start_unlimited]
  dsimp only
  rw [hscan]
  rfl

end Checked

/-- Without ceilings, a scan gives the one tiling of the text, which has at most one
span more than the text has symbols.  It gives it as well if its rounds are not counted
beforehand. -/
theorem Automaton.findAll_unique_tiling (a : Automaton) (ha : a.WellFormed) (x : Text) :
    ∃ spans, a.findAll x .unlimited = .ok spans ∧ Checked.findAll a x = .ok spans ∧
      Tiling a x 0 spans ∧ (∀ others, Tiling a x 0 others → others = spans) ∧
      spans.length ≤ x.symbolCount + 1 := by
  obtain ⟨spans, hscan, htiling, hcount⟩ := findAll_spec ha x
  obtain ⟨answer, hchecked, hagree⟩ := Checked.findAll_agree ha x
  obtain rfl := Except.ok.inj (hagree.symm.trans hscan)
  exact ⟨answer, hscan, hchecked, htiling, fun others hothers => hothers.unique htiling, hcount⟩

theorem Automaton.looping_findAll_unique_tiling :
    looping.WellFormed ∧
      Tiling looping (.ofString "baabxab") 0 [⟨1, 3, .ofString "aa"⟩, ⟨5, 7, .ofString "ab"⟩] := by
  have hwell : looping.WellFormed := by decide
  have hrun : looping.findAll (.ofString "baabxab") .unlimited =
      .ok [⟨1, 3, .ofString "aa"⟩, ⟨5, 7, .ofString "ab"⟩] := by decide +kernel
  obtain ⟨spans, hfind, _, htiling, _, _⟩ :=
    findAll_unique_tiling looping hwell (.ofString "baabxab")
  obtain rfl := Except.ok.inj (hfind.symm.trans hrun)
  exact ⟨hwell, htiling⟩

end RegexEngine
