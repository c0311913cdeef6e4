/-
# `Call.steps` — the work of a call is linear

One symbol of the text costs a call at most as many steps as the automaton has symbol
transitions, because no state is in a closed set twice, whatever cycles lead to it and
whatever starts the threads in it have (`Automaton.stepCost_le`).  And a call that goes
over the text once reads no more symbols than the text has, even if it starts inside of
a pair (`Text.length_symbolsFrom_le`).  So the steps of such a call are at most the
product of the two (`steps_le`).

A scan for all matches is not among these calls: it may read the text behind a match
more than once.

For a pattern the first factor is at most the length of its source, since every set of
symbols in an expression is written by at least one symbol of its own
(`Derives.length_sets_le`).
-/
import RegexEngine.Compiled
import RegexEngine.Proofs.Automaton.Blocks
import RegexEngine.Proofs.Automaton.Size
import RegexEngine.Proofs.Match.Ceilings
import RegexEngine.Proofs.Pattern.Soundness
import RegexEngine.Proofs.Text.Slicing
import RegexEngine.Proofs.Text.Writing

namespace RegexEngine

theorem Meter.steps_of_charge {m after : Meter} {k : Nat} (h : m.charge k = .ok after) :
    after.steps = m.steps + k := by
  unfold charge at h
  split at h
  · cases h
  · cases h
    rfl

namespace Automaton

variable {a : Automaton} {x : Text} {p : Nat} {meter after : Meter}

/-! ## A whole run -/

theorem nodup_closure (ha : a.WellFormed) {states : List Nat} (hstates : ∀ q ∈ states, q < a.size) :
    (a.closure x p states).Nodup :=
  nodup_closeThreads ha (lt_of_mem_seeds hstates)

/-- Each symbol that is left costs a run at most as many steps as there are symbol
transitions. -/
theorem steps_runFrom_le (ha : a.WellFormed) {states cs : List Nat} {b : Bool}
    (hstates : states.Nodup) (h : a.runFrom x p states meter cs = .ok (b, after)) :
    after.steps ≤ meter.steps + a.stats.symbolTransitions * cs.length := by
  induction cs generalizing p states meter with
  | nil =>
      cases h
      exact Nat.le_refl _
  | cons c rest ih =>
      rw [runFrom_cons] at h
      cases hcharge : meter.charge (a.stepCost states) with
      | error e =>
          rw [hcharge] at h
          cases h
      | ok charged =>
          have hcost := stepCost_le (a := a) hstates
          have hcharged := Meter.steps_of_charge hcharge
          rw [hcharge] at h
          rw [List.length_cons, Nat.mul_succ]
          change (if _ then _ else _) = _ at h
          split at h
          · cases h
            omega
          · have htargets : ∀ t ∈ states.flatMap (a.symbolTargets (a.flags.variants c)),
                t < a.size := fun t ht => lt_of_mem_flatMap_symbolTargets ha ht
            -- What is reached behind the symbol is closed again, so no state is in it twice.
            have := ih (nodup_closure ha htargets) h
            omega

theorem steps_run_le (ha : a.WellFormed) {b : Bool} (h : a.run x meter = .ok (b, after)) :
    after.steps ≤ meter.steps + a.stats.symbolTransitions * x.symbolCount := by
  have hstart : ∀ q ∈ [a.start], q < a.size := by
    intro q hq
    rw [List.mem_singleton.mp hq]
    exact ha.start_lt
  rw [Text.symbolCount_eq]
  exact steps_runFrom_le ha (nodup_closure ha hstart) h

/-! ## A search -/

theorem threadCost_eq (a : Automaton) (threads : List Thread) :
    a.threadCost threads = a.stepCost (threads.map (·.state)) := by
  rw [threadCost, stepCost, List.foldr_map]

/-- A search keeps one thread for each state, wherever it started. -/
theorem threadCost_contenders_le (ha : a.WellFormed) {seeds : List Thread}
    (hseeds : ∀ seed ∈ seeds, seed.state < a.size) (known : Option (Nat × Nat)) :
    a.threadCost (contenders known (a.closeThreads x p seeds)) ≤ a.stats.symbolTransitions := by
  rw [threadCost_eq]
  have hsublist := (contenders_sublist known (a.closeThreads x p seeds)).map (·.state)
  exact stepCost_le ((nodup_closeThreads ha hseeds).sublist hsublist)

/-- Each symbol that is left costs a search at most as many steps as there are symbol
transitions. -/
theorem steps_searchFrom_le (ha : a.WellFormed) {threads : List Thread}
    {best found : Option (Nat × Nat)} (hthreads : ∀ t ∈ threads, t.state < a.size)
    (h : a.searchFrom x p threads best meter = .ok (found, after)) :
    after.steps ≤ meter.steps + a.stats.symbolTransitions * (x.symbolsFrom p).length := by
  fun_induction searchFrom a x p threads best meter with
  | case1 p threads best meter =>
      obtain ⟨_, rfl⟩ := Prod.mk.inj (Except.ok.inj h)
      exact Nat.le_add_right _ _
  | case2 => cases h
  | case3 p threads best meter closed known alive _ inside charged hcharge _ ih =>
      have hseeds : ∀ seed ∈ a.seedsAt p threads best, seed.state < a.size :=
        lt_of_mem_seedsAt ha hthreads
      have htargets : ∀ t ∈ a.stepThreads (a.flags.variants (x.symbolAt p inside)) alive,
          t.state < a.size := lt_of_mem_stepThreads ha
      have hcost : a.threadCost alive ≤ a.stats.symbolTransitions :=
        threadCost_contenders_le ha hseeds known
      have hcharged := Meter.steps_of_charge hcharge
      have := ih htargets h
      rw [Text.symbolsFrom_of_lt inside, List.length_cons, Nat.mul_succ]
      omega
  | case4 p threads best meter =>
      obtain ⟨_, rfl⟩ := Prod.mk.inj (Except.ok.inj h)
      exact Nat.le_add_right _ _

theorem steps_findFrom_le (ha : a.WellFormed) {offset : Nat} {found : Option Span}
    (h : a.findFrom x offset meter = .ok (found, after)) :
    after.steps ≤ meter.steps + a.stats.symbolTransitions * x.symbolCount := by
  rw [findFrom] at h
  split at h
  · cases h
    exact Nat.le_add_right _ _
  · split at h
    · cases h
    · rename_i hsearch
      cases h
      refine Nat.le_trans (steps_searchFrom_le ha (List.forall_mem_nil _) hsearch) ?_
      exact Nat.add_le_add_left
        (Nat.mul_le_mul_left _ (x.length_symbolsFrom_le offset)) meter.steps

end Automaton

/-! ## Calls -/

namespace Call

/-- The call goes over the text once. -/
def ReadsOnce {α : Type} : Call α → Prop
  | .findAll => False
  | .accepts | .acceptsFiltered _ | .find _ | .test => True

variable {α : Type} {call : Call α} {a : Automaton} {x : Text}

theorem steps_work_le (ha : a.WellFormed) (hcall : call.ReadsOnce) {meter after : Meter}
    {answer : α} (h : call.work a x meter = .ok (answer, after)) :
    after.steps ≤ meter.steps + a.stats.symbolTransitions * x.symbolCount := by
  cases call with
  | accepts => exact Automaton.steps_run_le ha h
  | acceptsFiltered filter =>
      rw [work] at h
      split at h
      · exact Automaton.steps_run_le ha h
      · cases h
        exact Nat.le_add_right _ _
  | find offset =>
      rw [work] at h
      split at h
      · cases h
        exact Nat.le_add_right _ _
      · exact Automaton.steps_findFrom_le ha h
  | findAll => exact absurd hcall id
  | test =>
      rw [work] at h
      cases hfind : a.findFrom x 0 meter with
      | error e =>
          rw [hfind] at h
          cases h
      | ok found =>
          rw [hfind] at h
          cases h
          exact Automaton.steps_findFrom_le ha hfind

/-- A call that goes over the text once takes at most the product of the number of
symbol transitions and the number of symbols. -/
theorem steps_le (ha : a.WellFormed) (hcall : call.ReadsOnce) :
    call.steps a x ≤ a.stats.symbolTransitions * x.symbolCount := by
  rw [steps]
  split
  · rename_i answer after hwork
    have hafter := steps_work_le ha hcall hwork
    dsimp only at hafter
    rwa [Nat.zero_add] at hafter
  · exact Nat.zero_le _

/-- So many steps are enough for the call: it counts no more, and under a ceiling that
is not below that number only the length of the text can be an error. -/
structure Within (call : Call α) (a : Automaton) (x : Text) (bound : ℕ) : Prop where
  steps_le : call.steps a x ≤ bound
  kind_of_error : ∀ limits, ¬ limits.maxSteps.Below bound →
    ∀ e, call.outcome a x limits = .error e → e.kind = .inputLength

/-- What bounds the steps of a call is enough for it. -/
theorem Within.of_steps_le {bound : ℕ} (h : call.steps a x ≤ bound) : call.Within a x bound := by
  refine ⟨h, fun limits hbound e he => ?_⟩
  obtain ⟨answer, cost, htakes⟩ := call.exists_takes a x
  have hends := ends_of_takes htakes limits
  rw [← steps_eq htakes, he] at hends
  cases hends with
  | tooLong _ => rfl
  | tooManySteps _ _ hmany _ => exact absurd (Number.Below.mono hmany h) hbound

end Call

/-! ## Patterns -/

/-- Each set of symbols in an expression is written by a symbol of its own. -/
theorem Pattern.Derives.length_sets_le {phrase : Phrase} {budget : Nat} {cs : List Nat} {r : Regex}
    (h : Derives phrase budget cs r) : r.sets.length ≤ cs.length := by
  induction h with
  | any | escape _ | symbolClass _ | literal _ => simp [Regex.sets, Regex.literal]
  | start | stop | empty => exact Nat.zero_le _
  | group _ ih =>
      rw [List.length_cons, List.length_append]
      omega
  | once _ ih | single _ ih | branch _ ih | alternation _ ih => exact ih
  | quantified q _ _ ih =>
      have hsets : ∀ r : Regex, (q.apply r).sets = r.sets := fun r => by cases q <;> rfl
      rw [hsets, List.length_append]
      omega
  | append _ _ ihl ihr =>
      rw [Regex.sets, List.length_append, List.length_append]
      omega
  | bar _ _ ihl ihr =>
      rw [Regex.sets, List.length_append, List.length_append, List.length_cons]
      omega

variable {source : Text} {flags : Flags} {limits : Limits} {p : Compiled}

/-- What is compiled is a pattern, and its automaton is that of what it denotes. -/
theorem exists_derives_of_compile (h : compile source flags limits = .ok p) :
    ∃ r, Pattern.Derives .alternation Pattern.maxNesting source.symbols r ∧
      p.automaton = .ofRegex r flags := by
  rw [compile, Pattern.parse] at h
  split at h
  · cases h
  · rename_i r hparse
    cases h
    exact ⟨r, Pattern.derives_of_parseRegex hparse, rfl⟩

theorem wellFormed_of_compile (h : compile source flags limits = .ok p) :
    p.automaton.WellFormed := by
  obtain ⟨r, _, hr⟩ := exists_derives_of_compile h
  rw [hr]
  exact Automaton.wellFormed_ofRegex r flags

/-- The automaton of a pattern has at most one symbol transition for each unit of the
source. -/
theorem symbolTransitions_le_length (h : compile source flags limits = .ok p) :
    p.automaton.stats.symbolTransitions ≤ source.length := by
  obtain ⟨r, hderives, hr⟩ := exists_derives_of_compile h
  calc p.automaton.stats.symbolTransitions
      = r.sets.length := by rw [hr, Automaton.symbolTransitions_ofRegex]
    _ ≤ source.symbols.length := hderives.length_sets_le
    _ = source.symbolCount := by rw [source.symbolCount_eq, source.symbolsFrom_zero]
    _ ≤ source.length := source.symbolCount_le_length

/-- The units of the source times the symbols of the text are steps enough. -/
theorem Call.within_of_compile {α : Type} {call : Call α} {x : Text} (hcall : call.ReadsOnce)
    (h : compile source flags limits = .ok p) :
    call.Within p.automaton x (source.length * x.symbolCount) := by
  refine .of_steps_le ?_
  calc call.steps p.automaton x
      ≤ p.automaton.stats.symbolTransitions * x.symbolCount :=
        steps_le (wellFormed_of_compile h) hcall
    _ ≤ source.length * x.symbolCount := Nat.mul_le_mul_right _ (symbolTransitions_le_length h)

/-- Matching takes linear work.  For every call that goes over the text once, the symbol
transitions of the automaton times the symbols of the text are steps enough; and for
the calls of a pattern, the units of its source times the symbols of the text are. -/
theorem linear_work :
    (∀ a x, a.WellFormed → ∀ {α : Type} (call : Call α), call.ReadsOnce →
      call.Within a x (a.stats.symbolTransitions * x.symbolCount)) ∧
    ∀ source flags limits p, compile source flags limits = .ok p →
      p.automaton.stats.symbolTransitions ≤ source.length ∧
      ∀ x, (∀ {α : Type} (call : Call α), call.ReadsOnce →
          call.Within p.automaton x (source.length * x.symbolCount)) ∧
        (¬ p.limits.maxSteps.Below (source.length * x.symbolCount) →
          ∀ offset e, p.accepts x = .error e ∨ p.find x offset = .error e ∨
            p.test x = .error e → e.kind = .inputLength) := by
  constructor
  · intro a x ha _ call hcall
    exact .of_steps_le (call.steps_le ha hcall)
  · intro source flags limits p h
    refine ⟨symbolTransitions_le_length h, fun x => ⟨fun call hcall => ?_, ?_⟩⟩
    · exact call.within_of_compile hcall h
    · intro hlimit offset e he
      have hcall : ∀ {α : Type} (call : Call α), call.ReadsOnce →
          call.outcome p.automaton x p.limits = .error e → e.kind = .inputLength :=
        fun call hcall => (call.within_of_compile hcall h).kind_of_error p.limits hlimit e
      rcases he with he | he | he
      · exact hcall (.acceptsFiltered p.filter) trivial he
      · exact hcall (.find offset) trivial he
      · exact hcall .test trivial he

/-- A loop in a loop, on a text that it can be cut into in many ways. -/
theorem nestedLoop_linear_work :
    (Automaton.looping.WellFormed ∧
      Call.test.Within .looping (.ofString "aab")
        (Automaton.looping.stats.symbolTransitions * (Text.ofString "aab").symbolCount)) ∧
    ∃ p, compile (.ofString "(a*)*b") {} ⟨.infinity, .ofNat 24⟩ = .ok p ∧
      p.automaton.stats.symbolTransitions ≤ 6 ∧
      (Call.find (.ofNat 0)).Within p.automaton (.ofString "aaaa") 24 ∧
      ∀ e, p.accepts (.ofString "aaaa") = .error e → e.kind = .inputLength := by
  have hwell : Automaton.looping.WellFormed := by decide
  have hcompile : compile (.ofString "(a*)*b") {} ⟨.infinity, .ofNat 24⟩ =
      .ok (Pattern.compile ⟨.ofString "(a*)*b",
        .concat (.star (.star (.literal 97))) (.literal 98), {}⟩ ⟨.infinity, .ofNat 24⟩) := by
    decide +kernel
  refine ⟨⟨hwell, linear_work.1 _ _ hwell .test trivial⟩, _, hcompile, ?_⟩
  obtain ⟨hsize, hcalls⟩ := linear_work.2 _ _ _ _ hcompile
  obtain ⟨hwithin, hkind⟩ := hcalls (.ofString "aaaa")
  have hbound : (Text.ofString "(a*)*b").length * (Text.ofString "aaaa").symbolCount = 24 := by
    decide +kernel
  rw [hbound] at hkind
  have hlimit : ¬ (Number.ofNat 24).Below 24 :=
    mt Number.exceededBy_iff_below.mpr (by decide +kernel)
  exact ⟨hsize, hbound ▸ hwithin (.find (.ofNat 0)) trivial,
    fun e he => hkind hlimit (.ofNat 0) e (.inl he)⟩

end RegexEngine
