/-
# `Automaton.closeThreads` is reachability, labelled by the first seed

The exploration of silent transitions keeps an invariant (`Exploring`): what is
marked is what earlier seeds have reached and what has been found; and a state that
has been found and does not wait on the stack has no unmarked successor.  Where the
stack is empty, the states found are therefore closed but for transitions into the
old marks, which are closed themselves.  So a seed finds exactly the states that it
reaches and that no earlier seed reached (`mem_explore`), whatever cycles the
transitions form.

One seed after the other, a list of seeds gives every reachable state once, with
the start of the first seed that reaches it (`FirstReaching`), and in the order of
these seeds.
-/
import Mathlib.Data.List.Nodup
import Mathlib.Tactic.ByContra
import Mathlib.Tactic.Tauto
import RegexEngine.Automaton.Closure
import RegexEngine.Proofs.Automaton.Path

namespace RegexEngine

/-! ## Marks as a set -/

namespace Marks

/-- The number is in range and marked. -/
def Marked (m : Marks) (i : Nat) : Prop := m.seen[i]? = some true

/-- The numbers in range are those below the size. -/
def size (m : Marks) : Nat := m.seen.size

variable {m : Marks} {i j n : Nat}

theorem isFresh_iff : m.isFresh i = true ↔ i < m.size ∧ ¬ m.Marked i := by
  unfold isFresh Marked size
  by_cases h : i < m.seen.size
  · rw [Array.getElem?_eq_getElem h]
    simp [h]
  · rw [Array.getElem?_eq_none (by omega)]
    simp [h]

@[simp] theorem size_clear : (clear n).size = n := Array.size_replicate

theorem not_marked_clear : ¬ (clear n).Marked i := by
  intro h
  have hmem := Array.mem_of_getElem? h
  simp only [clear, Array.mem_replicate] at hmem
  exact absurd hmem.2 (by decide)

theorem unmarked_clear (n : Nat) : (clear n).unmarked = n := by
  show (Array.replicate n false).toList.countP (! ·) = n
  rw [Array.toList_replicate, List.countP_replicate]
  rfl

@[simp] theorem size_mark : (m.mark i).size = m.size := Array.size_setIfInBounds

theorem marked_mark (h : i < m.size) : (m.mark i).Marked j ↔ j = i ∨ m.Marked j := by
  unfold Marked mark
  by_cases heq : i = j
  · subst heq
    have hi : i < m.seen.size := h
    simp [hi]
  · rw [Array.getElem?_setIfInBounds_ne heq]
    constructor
    · exact Or.inr
    · rintro (rfl | hj)
      · exact absurd rfl heq
      · exact hj

/-- Marking onto a stack puts the unmarked ones among some numbers on it, each
once. -/
theorem markOnto_spec (m : Marks) (stack : List Nat) {numbers : List Nat}
    (h : ∀ r ∈ numbers, r < m.size) :
    ∃ new, (m.markOnto stack numbers).2 = new ++ stack ∧ new.Nodup ∧
      (∀ q, q ∈ new ↔ q ∈ numbers ∧ ¬ m.Marked q) ∧
      (∀ q, (m.markOnto stack numbers).1.Marked q ↔ m.Marked q ∨ q ∈ numbers) ∧
      (m.markOnto stack numbers).1.size = m.size := by
  fun_induction markOnto m stack numbers with
  | case1 m stack => exact ⟨[], rfl, List.nodup_nil, by simp, by simp, rfl⟩
  | case2 m stack q rest hfresh ih =>
      obtain ⟨hq, hunmarked⟩ := isFresh_iff.mp hfresh
      obtain ⟨new, hstack, hnodup, hnew, hmarked, hsize⟩ :=
        ih (fun r hr => by rw [size_mark]; exact h r (List.mem_cons_of_mem _ hr))
      simp only [marked_mark hq] at hnew hmarked
      have hqnew : q ∉ new := fun hmem => ((hnew q).mp hmem).2 (Or.inl rfl)
      refine ⟨new ++ [q], by rw [hstack]; simp, ?_, ?_, ?_, by rw [hsize, size_mark]⟩
      · refine List.nodup_append.mpr ⟨hnodup, List.nodup_singleton q, ?_⟩
        intro r hr r' hr'
        rw [List.mem_singleton] at hr'
        rintro rfl
        exact hqnew (hr' ▸ hr)
      · intro r
        rw [List.mem_append, List.mem_singleton, List.mem_cons, hnew]
        constructor
        · rintro (⟨hr, hno⟩ | rfl)
          · exact ⟨Or.inr hr, fun hm => hno (Or.inr hm)⟩
          · exact ⟨Or.inl rfl, hunmarked⟩
        · rintro ⟨hr, hno⟩
          by_cases heq : r = q
          · exact Or.inr heq
          · exact Or.inl ⟨hr.resolve_left heq, fun hm => hm.elim heq hno⟩
      · intro r
        rw [hmarked, List.mem_cons, or_comm (a := r = q), or_assoc]
  | case3 m stack q rest hfresh ih =>
      have hq : m.Marked q := by
        by_contra hno
        exact hfresh (isFresh_iff.mpr ⟨h q List.mem_cons_self, hno⟩)
      obtain ⟨new, hstack, hnodup, hnew, hmarked, hsize⟩ :=
        ih (fun r hr => h r (List.mem_cons_of_mem _ hr))
      refine ⟨new, hstack, hnodup, ?_, ?_, hsize⟩
      · intro r
        rw [hnew, List.mem_cons]
        constructor
        · rintro ⟨hr, hno⟩
          exact ⟨Or.inr hr, hno⟩
        · rintro ⟨hr, hno⟩
          exact ⟨hr.resolve_left (fun heq => hno (heq ▸ hq)), hno⟩
      · intro r
        rw [hmarked, List.mem_cons]
        constructor
        · rintro (hm | hr)
          · exact Or.inl hm
          · exact Or.inr (Or.inr hr)
        · rintro (hm | rfl | hr)
          · exact Or.inl hm
          · exact Or.inl hq
          · exact Or.inr hr

end Marks

namespace Automaton

variable {a : Automaton} {x : Text} {p : Nat}

/-! ## One seed -/

/-- The state of an exploration: `old` is what was marked before, `seed` where it
began.  The states that have left the stack are done with. -/
structure Exploring (a : Automaton) (x : Text) (p : Nat) (old : Nat → Prop) (seed : Nat)
    (marks : Marks) (found stack : List Nat) : Prop where
  size_eq : marks.size = a.size
  marked_iff : ∀ q, marks.Marked q ↔ old q ∨ q ∈ found
  not_old : ∀ q ∈ found, ¬ old q
  nodup : found.Nodup
  reached : ∀ q ∈ found, a.Reaches x p seed q
  stack_subset : stack ⊆ found
  closed : ∀ q ∈ found, q ∉ stack → ∀ t, a.Silent x p q t → marks.Marked t
  seed_mem : seed ∈ found

/-- An exploration begins with its seed, which is found and waits on the stack. -/
theorem Exploring.init {marks : Marks} {seed : Nat} (hsize : marks.size = a.size)
    (hfresh : marks.isFresh seed = true) :
    Exploring a x p marks.Marked seed (marks.mark seed) [seed] [seed] where
  size_eq := by rw [Marks.size_mark, hsize]
  marked_iff := fun q => by
    rw [Marks.marked_mark (Marks.isFresh_iff.mp hfresh).1, or_comm, List.mem_singleton]
  not_old := List.forall_mem_singleton.mpr (Marks.isFresh_iff.mp hfresh).2
  nodup := List.nodup_singleton seed
  reached := List.forall_mem_singleton.mpr .refl
  stack_subset := List.Subset.refl _
  closed := fun _ hq hno => absurd hq hno
  seed_mem := List.mem_singleton_self seed

/-- Taking the top of the stack keeps the invariant: its successors are marked, and the
new ones of them are found and wait. -/
theorem Exploring.pass {old : Nat → Prop} {seed q : Nat} {marks : Marks}
    {found stack : List Nat} (ha : a.WellFormed)
    (h : Exploring a x p old seed marks found (q :: stack)) :
    Exploring a x p old seed (marks.markOnto [] (a.silentTargets x p q)).1
      ((marks.markOnto [] (a.silentTargets x p q)).2 ++ found)
      ((marks.markOnto [] (a.silentTargets x p q)).2 ++ stack) := by
  have hbound : ∀ r ∈ a.silentTargets x p q, r < marks.size := fun r hr => by
    rw [h.size_eq]
    exact (mem_silentTargets.mp hr).lt ha
  obtain ⟨new, hstack, hnodup, hnew, hmarked, hsize⟩ := marks.markOnto_spec [] hbound
  rw [List.append_nil] at hstack
  obtain ⟨hq, hsubset⟩ := List.cons_subset.mp h.stack_subset
  rw [hstack]
  refine ⟨hsize.trans h.size_eq, ?_, ?_, ?_, ?_, ?_, ?_, List.mem_append_right new h.seed_mem⟩
  · intro r
    rw [hmarked, List.mem_append, hnew, h.marked_iff]
    tauto
  · intro r hr
    rcases List.mem_append.mp hr with hr | hr
    · exact fun hold => ((hnew r).mp hr).2 ((h.marked_iff r).mpr (Or.inl hold))
    · exact h.not_old r hr
  · refine List.nodup_append.mpr ⟨hnodup, h.nodup, ?_⟩
    rintro r hr r' hr' rfl
    exact ((hnew r).mp hr).2 ((h.marked_iff r).mpr (Or.inr hr'))
  · intro r hr
    rcases List.mem_append.mp hr with hr | hr
    · exact .tail (h.reached q hq) (mem_silentTargets.mp ((hnew r).mp hr).1)
    · exact h.reached r hr
  · exact List.append_subset.mpr ⟨List.subset_append_left new found,
      List.subset_append_of_subset_right new hsubset⟩
  · intro r hr hleft t ht
    obtain ⟨hnotnew, hnotstack⟩ := not_or.mp (mt List.mem_append.mpr hleft)
    rw [hmarked]
    by_cases heq : r = q
    · exact Or.inr (mem_silentTargets.mpr (heq ▸ ht))
    · have hfound : r ∈ found := (List.mem_append.mp hr).resolve_left hnotnew
      exact Or.inl (h.closed r hfound (List.not_mem_cons_of_ne_of_not_mem heq hnotstack) t ht)

/-- An exploration keeps the invariant until its stack is empty. -/
theorem Exploring.explore {old : Nat → Prop} {seed : Nat} {marks : Marks}
    {found stack : List Nat} (ha : a.WellFormed)
    (h : Exploring a x p old seed marks found stack) :
    Exploring a x p old seed (a.explore x p marks found stack).1
      (a.explore x p marks found stack).2 [] := by
  fun_induction Automaton.explore a x p marks found stack with
  | case1 marks found => exact h
  | case2 marks found q stack next ih => exact ih (h.pass ha)

/-- Silent transitions lead from marked states to marked ones only. -/
def Saturated (a : Automaton) (x : Text) (p : Nat) (marks : Marks) : Prop :=
  ∀ q t, marks.Marked q → a.Silent x p q t → marks.Marked t

theorem saturated_clear (a : Automaton) (x : Text) (p n : Nat) : a.Saturated x p (.clear n) :=
  fun _ _ hq => absurd hq Marks.not_marked_clear

theorem Saturated.reaches {marks : Marks} {q r : Nat} (h : a.Saturated x p marks)
    (hq : marks.Marked q) (hreach : a.Reaches x p q r) : marks.Marked r := by
  induction hreach with
  | refl => exact hq
  | tail _ hlast ih => exact h _ _ ih hlast

/-- A seed finds the states that it reaches and that were not marked before, each
once; these are marked afterwards. -/
theorem mem_explore {marks : Marks} {seed : Nat} (ha : a.WellFormed)
    (hsize : marks.size = a.size) (hfresh : marks.isFresh seed = true)
    (hsaturated : a.Saturated x p marks) :
    let reach := a.explore x p (marks.mark seed) [seed] [seed]
    reach.1.size = a.size ∧ reach.2.Nodup ∧
      (∀ q, q ∈ reach.2 ↔ a.Reaches x p seed q ∧ ¬ marks.Marked q) ∧
      ∀ q, reach.1.Marked q ↔ marks.Marked q ∨ a.Reaches x p seed q := by
  intro reach
  have h : Exploring a x p marks.Marked seed reach.1 reach.2 [] :=
    (Exploring.init hsize hfresh).explore ha
  -- What a seed reaches is found, unless the way there meets an old mark.
  have hcover : a.Saturated x p reach.1 := by
    intro q t hq ht
    rcases (h.marked_iff q).mp hq with hold | hfound
    · exact (h.marked_iff t).mpr (Or.inl (hsaturated q t hold ht))
    · exact h.closed q hfound List.not_mem_nil t ht
  have hstart : reach.1.Marked seed := (h.marked_iff seed).mpr (Or.inr h.seed_mem)
  refine ⟨h.size_eq, h.nodup, ?_, ?_⟩
  · intro q
    constructor
    · intro hq
      exact ⟨h.reached q hq, h.not_old q hq⟩
    · rintro ⟨hq, hno⟩
      exact ((h.marked_iff q).mp (hcover.reaches hstart hq)).resolve_left hno
  · intro q
    constructor
    · intro hq
      exact ((h.marked_iff q).mp hq).imp_right (h.reached q)
    · rintro (hold | hq)
      · exact (h.marked_iff q).mpr (Or.inl hold)
      · exact hcover.reaches hstart hq

/-! ## Many seeds -/

/-- The first seed that reaches `q` has the start `start`. -/
def FirstReaching (a : Automaton) (x : Text) (p : Nat) : List Thread → Nat → Nat → Prop
  | [], _, _ => False
  | seed :: rest, q, start =>
      (a.Reaches x p seed.state q ∧ seed.start = start) ∨
        (¬ a.Reaches x p seed.state q ∧ FirstReaching a x p rest q start)

theorem FirstReaching.exists_seed {seeds : List Thread} {q start : Nat}
    (h : a.FirstReaching x p seeds q start) :
    ∃ seed ∈ seeds, a.Reaches x p seed.state q ∧ seed.start = start := by
  induction seeds with
  | nil => exact absurd h id
  | cons seed rest ih =>
      rcases h with h | ⟨_, h⟩
      · exact ⟨seed, List.mem_cons_self, h⟩
      · obtain ⟨seed', hmem, h'⟩ := ih h
        exact ⟨seed', List.mem_cons_of_mem _ hmem, h'⟩

/-- Where seeds ascend, the first one that reaches a state has the least start. -/
theorem exists_firstReaching {seeds : List Thread} {seed : Thread} {q : Nat}
    (hsorted : seeds.Pairwise (·.start ≤ ·.start)) (hmem : seed ∈ seeds)
    (hreach : a.Reaches x p seed.state q) :
    ∃ start ≤ seed.start, a.FirstReaching x p seeds q start := by
  induction seeds with
  | nil => exact absurd hmem List.not_mem_nil
  | cons first rest ih =>
      obtain ⟨hfirst, hrest⟩ := List.pairwise_cons.mp hsorted
      by_cases h : a.Reaches x p first.state q
      · refine ⟨first.start, ?_, Or.inl ⟨h, rfl⟩⟩
        rcases List.mem_cons.mp hmem with rfl | hmem
        · exact Nat.le_refl _
        · exact hfirst seed hmem
      · rcases List.mem_cons.mp hmem with rfl | hmem
        · exact absurd hreach h
        · obtain ⟨start, hle, hstart⟩ := ih hrest hmem
          exact ⟨start, hle, Or.inr ⟨h, hstart⟩⟩

/-- The threads that one seed gives behind earlier ones. -/
theorem mem_map_found {marks : Marks} {seed t : Thread} {found : List Nat}
    (hfound : ∀ q, q ∈ found ↔ a.Reaches x p seed.state q ∧ ¬ marks.Marked q) :
    t ∈ found.map (⟨·, seed.start⟩ : Nat → Thread) ↔
      (a.Reaches x p seed.state t.state ∧ seed.start = t.start) ∧ ¬ marks.Marked t.state := by
  rw [List.mem_map]
  constructor
  · rintro ⟨q, hq, rfl⟩
    exact ⟨⟨((hfound q).mp hq).1, rfl⟩, ((hfound q).mp hq).2⟩
  · rintro ⟨⟨hreach, hstart⟩, hno⟩
    exact ⟨t.state, (hfound t.state).mpr ⟨hreach, hno⟩, by rw [hstart]⟩

/-- The threads that seeds give behind earlier ones: each state that is not marked
yet once, with the start of the first seed that reaches it, in the order of the
seeds. -/
structure Closing (a : Automaton) (x : Text) (p : Nat) (marks : Marks)
    (seeds threads : List Thread) : Prop where
  mem_iff : ∀ t, t ∈ threads ↔
    ¬ marks.Marked t.state ∧ a.FirstReaching x p seeds t.state t.start
  nodup : (threads.map (·.state)).Nodup
  sorted : seeds.Pairwise (·.start ≤ ·.start) → threads.Pairwise (·.start ≤ ·.start)

theorem Closing.nil (a : Automaton) (x : Text) (p : Nat) (marks : Marks) :
    Closing a x p marks [] [] :=
  ⟨fun t => by simp [FirstReaching], List.nodup_nil, fun _ => .nil⟩

/-- A seed that has been reached adds nothing: all that it reaches has been reached. -/
theorem Closing.skip {marks : Marks} {seed : Thread} {rest threads : List Thread}
    (hseed : marks.Marked seed.state) (hsaturated : a.Saturated x p marks)
    (h : Closing a x p marks rest threads) : Closing a x p marks (seed :: rest) threads := by
  refine ⟨?_, h.nodup, fun hpair => h.sorted (List.pairwise_cons.mp hpair).2⟩
  intro t
  rw [h.mem_iff, FirstReaching]
  constructor
  · rintro ⟨hno, hfirst⟩
    exact ⟨hno, Or.inr ⟨fun hq => hno (hsaturated.reaches hseed hq), hfirst⟩⟩
  · rintro ⟨hno, ⟨hq, _⟩ | ⟨_, hfirst⟩⟩
    · exact absurd (hsaturated.reaches hseed hq) hno
    · exact ⟨hno, hfirst⟩

/-- A new seed adds what it finds, in front of what the other seeds add. -/
theorem Closing.cons {marks after : Marks} {seed : Thread} {rest threads : List Thread}
    {found : List Nat} (hnodup : found.Nodup)
    (hfound : ∀ q, q ∈ found ↔ a.Reaches x p seed.state q ∧ ¬ marks.Marked q)
    (hafter : ∀ q, after.Marked q ↔ marks.Marked q ∨ a.Reaches x p seed.state q)
    (h : Closing a x p after rest threads) :
    Closing a x p marks (seed :: rest) (found.map (⟨·, seed.start⟩) ++ threads) := by
  refine ⟨?_, ?_, ?_⟩
  · intro t
    rw [List.mem_append, mem_map_found hfound, h.mem_iff, hafter, FirstReaching]
    tauto
  · rw [List.map_append, List.map_map]
    have hid : ((·.state) ∘ (⟨·, seed.start⟩ : Nat → Thread)) = id := rfl
    rw [hid, List.map_id]
    refine List.nodup_append.mpr ⟨hnodup, h.nodup, ?_⟩
    rintro q hq q' hq' rfl
    obtain ⟨t, ht, rfl⟩ := List.mem_map.mp hq'
    exact ((h.mem_iff t).mp ht).1 ((hafter _).mpr (Or.inr ((hfound _).mp hq).1))
  · intro hpair
    obtain ⟨hfirst, hrest⟩ := List.pairwise_cons.mp hpair
    refine List.pairwise_append.mpr ⟨?_, h.sorted hrest, ?_⟩
    · exact List.pairwise_map.mpr (List.pairwise_of_forall (fun _ _ => Nat.le_refl _))
    · intro t ht t' ht'
      obtain ⟨s, hs, _, hstart⟩ := ((h.mem_iff t').mp ht').2.exists_seed
      obtain ⟨⟨_, hstart'⟩, _⟩ := (mem_map_found hfound).mp ht
      rw [← hstart, ← hstart']
      exact hfirst s hs

theorem closeFrom_spec (ha : a.WellFormed) (marks : Marks) (seeds : List Thread)
    (hseeds : ∀ seed ∈ seeds, seed.state < a.size) (hsize : marks.size = a.size)
    (hsaturated : a.Saturated x p marks) :
    Closing a x p marks seeds (a.closeFrom x p marks seeds) := by
  fun_induction closeFrom a x p marks seeds with
  | case1 marks => exact .nil a x p marks
  | case2 marks seed rest hfresh reach ih =>
      obtain ⟨hsize', hnodup, hfound, hmarked⟩ := mem_explore ha hsize hfresh hsaturated
      have hsaturated' : a.Saturated x p reach.1 := by
        intro q t hq ht
        rcases (hmarked q).mp hq with hold | hq
        · exact (hmarked t).mpr (Or.inl (hsaturated q t hold ht))
        · exact (hmarked t).mpr (Or.inr (.tail hq ht))
      have hrest : ∀ s ∈ rest, s.state < a.size := fun s hs =>
        hseeds s (List.mem_cons_of_mem seed hs)
      exact .cons (List.nodup_reverse.mpr hnodup) (fun q => List.mem_reverse.trans (hfound q))
        hmarked (ih hrest hsize' hsaturated')
  | case3 marks seed rest hfresh ih =>
      have hseed : marks.Marked seed.state := by
        by_contra hno
        refine hfresh (Marks.isFresh_iff.mpr ⟨?_, hno⟩)
        rw [hsize]
        exact hseeds seed List.mem_cons_self
      have hrest : ∀ s ∈ rest, s.state < a.size := fun s hs =>
        hseeds s (List.mem_cons_of_mem seed hs)
      exact .skip hseed hsaturated (ih hrest hsize hsaturated)

section Threads

variable (ha : a.WellFormed) {seeds : List Thread} (hseeds : ∀ seed ∈ seeds, seed.state < a.size)

include ha hseeds

theorem closeThreads_spec :
    Closing a x p (.clear a.size) seeds (a.closeThreads x p seeds) :=
  closeFrom_spec ha (.clear a.size) seeds hseeds Marks.size_clear (saturated_clear a x p a.size)

/-- A thread is in the closure exactly if the first seed that reaches its state has
its start. -/
theorem mem_closeThreads {t : Thread} :
    t ∈ a.closeThreads x p seeds ↔ a.FirstReaching x p seeds t.state t.start := by
  rw [(closeThreads_spec ha hseeds).mem_iff]
  exact and_iff_right Marks.not_marked_clear

theorem nodup_closeThreads : ((a.closeThreads x p seeds).map (·.state)).Nodup :=
  (closeThreads_spec ha hseeds).nodup

theorem pairwise_closeThreads (hsorted : seeds.Pairwise (·.start ≤ ·.start)) :
    (a.closeThreads x p seeds).Pairwise (·.start ≤ ·.start) :=
  (closeThreads_spec ha hseeds).sorted hsorted

/-- What a thread of the closure stands for. -/
theorem exists_seed_of_mem_closeThreads {t : Thread} (ht : t ∈ a.closeThreads x p seeds) :
    ∃ seed ∈ seeds, a.Reaches x p seed.state t.state ∧ seed.start = t.start :=
  ((mem_closeThreads ha hseeds).mp ht).exists_seed

/-- Where seeds ascend, what one of them reaches is in the closure with a start that
is not later. -/
theorem exists_mem_closeThreads (hsorted : seeds.Pairwise (·.start ≤ ·.start)) {seed : Thread}
    {q : Nat} (hmem : seed ∈ seeds) (hreach : a.Reaches x p seed.state q) :
    ∃ t ∈ a.closeThreads x p seeds, t.state = q ∧ t.start ≤ seed.start := by
  obtain ⟨start, hle, hfirst⟩ := exists_firstReaching hsorted hmem hreach
  exact ⟨⟨q, start⟩, (mem_closeThreads ha hseeds).mpr hfirst, rfl, hle⟩

end Threads

/-- States as seeds are states. -/
theorem lt_of_mem_seeds {states : List Nat} (hstates : ∀ q ∈ states, q < a.size) :
    ∀ seed ∈ states.map (⟨·, 0⟩ : Nat → Thread), seed.state < a.size := by
  intro seed hseed
  obtain ⟨q, hq, rfl⟩ := List.mem_map.mp hseed
  exact hstates q hq

/-- The closure of a set of states is what they reach. -/
theorem mem_closure (ha : a.WellFormed) {states : List Nat} (hstates : ∀ q ∈ states, q < a.size)
    {r : Nat} : r ∈ a.closure x p states ↔ ∃ q ∈ states, a.Reaches x p q r := by
  have hseeds := lt_of_mem_seeds hstates
  have hsorted : (states.map (⟨·, 0⟩ : Nat → Thread)).Pairwise (·.start ≤ ·.start) :=
    List.pairwise_map.mpr (List.pairwise_of_forall (fun _ _ => Nat.le_refl _))
  rw [closure, List.mem_map]
  constructor
  · rintro ⟨t, ht, rfl⟩
    obtain ⟨seed, hseed, hreach, _⟩ := exists_seed_of_mem_closeThreads ha hseeds ht
    obtain ⟨q, hq, rfl⟩ := List.mem_map.mp hseed
    exact ⟨q, hq, hreach⟩
  · rintro ⟨q, hq, hreach⟩
    obtain ⟨t, ht, hstate, _⟩ := exists_mem_closeThreads ha hseeds hsorted
      (List.mem_map_of_mem hq) hreach
    exact ⟨t, ht, hstate⟩

end Automaton

end RegexEngine
