/-
# `Automaton.Realizes` — what a part of an automaton does

A fragment is a set of states that is left only to one state, its exit.  The exit is
not one of them: what leads out of it depends on what surrounds the fragment, and a
fragment says nothing about it.  So the same fragment can be looked at on its own and
inside any automaton, and two of them can share a state that is the exit of the one
and the entry of the other.

`Realizes` says which offsets a fragment connects, from its entries to its exit.
Fragments are put together from the back to the front, as the exit of the first has
to be known when the second begins: `compose`, `union`, `jump` for a state that does
nothing but choose an entry, and `loop` for a fragment whose exit leads back in.

All of them rest on one fact about paths (`Leads.split`): a path out of a fragment
passes its exit.
-/
import Mathlib.Data.Set.Insert
import RegexEngine.Proofs.Automaton.Path

namespace RegexEngine.Automaton

/-- A path on which every step starts in a given set of states. -/
def Leads (a : Automaton) (x : Text) (S : Set Nat) : Place → Place → Prop :=
  Relation.ReflTransGen fun u v => u.state ∈ S ∧ a.Step x u v

/-- Outside of the set, only the state `exit` is entered from it. -/
structure Closed (a : Automaton) (x : Text) (S : Set Nat) (exit : Nat) : Prop where
  exit_not_mem : exit ∉ S
  step : ∀ u v, u.state ∈ S → a.Step x u v → v.state ∈ S ∨ v.state = exit

/-- The fragment with states `S` leads from its entries `E` to its exit, between
exactly the offsets that `R` relates. -/
structure Realizes (a : Automaton) (x : Text) (S E : Set Nat) (exit : Nat)
    (R : Nat → Nat → Prop) : Prop extends Closed a x S exit where
  entry : ∀ q ∈ E, q ∈ S ∨ q = exit
  leads_iff : ∀ i j, (∃ q ∈ E, a.Leads x S ⟨q, i⟩ ⟨exit, j⟩) ↔ R i j

/-- All that `q` does is to go on at one of the states `E`. -/
def Jumps (a : Automaton) (q : Nat) (E : Set Nat) : Prop :=
  ∀ tr, tr ∈ a.out q ↔ ∃ t ∈ E, tr = .epsilon t

variable {a : Automaton} {x : Text} {S T E E₁ E₂ S₁ S₂ : Set Nat} {exit m q t i j k : Nat}
  {R R₁ R₂ : Nat → Nat → Prop} {u v w : Place}

/-! ## Paths through fragments -/

theorem Leads.mono (hST : S ⊆ T) (h : a.Leads x S u v) : a.Leads x T u v :=
  Relation.ReflTransGen.mono (fun _ _ hstep => ⟨hST hstep.1, hstep.2⟩) _ _ h

theorem leads_univ : a.Leads x Set.univ u v ↔ a.Path x u v := by
  unfold Leads Path
  simp only [Set.mem_univ, true_and]

/-- From a state without steps in the set, a path leads nowhere else. -/
theorem Leads.eq_of_stuck (hstuck : ∀ w, ¬ (u.state ∈ S ∧ a.Step x u w)) (h : a.Leads x S u v) :
    u = v := by
  rcases Relation.ReflTransGen.cases_head h with heq | ⟨w, hstep, _⟩
  · exact heq
  · exact absurd hstep (hstuck w)

/-- A path that begins in a fragment and ends outside of it passes the exit, and the
part in front of the exit stays inside. -/
theorem Leads.split (hclosed : a.Closed x S exit) (h : a.Leads x T u v)
    (hu : u.state ∈ S ∨ u.state = exit) (hv : v.state ∉ S) :
    ∃ k, a.Leads x S u ⟨exit, k⟩ ∧ a.Leads x T ⟨exit, k⟩ v := by
  induction h using Relation.ReflTransGen.head_induction_on with
  | refl =>
      have heq : v.state = exit := hu.resolve_left hv
      obtain ⟨q, k⟩ := v
      obtain rfl : q = exit := heq
      exact ⟨k, .refl, .refl⟩
  | @head u w hstep hrest ih =>
      rcases hu with hu | heq
      · obtain ⟨k, hfront, hback⟩ := ih (hclosed.step u w hu hstep.2)
        exact ⟨k, .head ⟨hu, hstep.2⟩ hfront, hback⟩
      · obtain ⟨q, k⟩ := u
        obtain rfl : q = exit := heq
        exact ⟨k, .refl, .head hstep hrest⟩

/-- A path to the exit of a fragment stays inside the fragment, unless it could go on
behind the exit. -/
theorem Leads.confine (hclosed : a.Closed x S exit) (h : a.Leads x T u ⟨exit, j⟩)
    (hu : u.state ∈ S ∨ u.state = exit)
    (hstuck : ∀ k w, ¬ (exit ∈ T ∧ a.Step x ⟨exit, k⟩ w)) : a.Leads x S u ⟨exit, j⟩ := by
  obtain ⟨k, hfront, hback⟩ := h.split hclosed hu hclosed.exit_not_mem
  obtain ⟨rfl⟩ := hback.eq_of_stuck (hstuck k)
  exact hfront

/-! ## Jumps -/

theorem Jumps.silent (h : a.Jumps q E) (ht : t ∈ E) : a.Step x ⟨q, i⟩ ⟨t, i⟩ :=
  .silent (.epsilon ((h _).mpr ⟨t, ht, rfl⟩))

/-- The steps out of a state that jumps. -/
theorem Jumps.of_step (h : a.Jumps q E) (hstep : a.Step x ⟨q, i⟩ v) :
    ∃ t ∈ E, v = ⟨t, i⟩ := by
  obtain ⟨tr, hmem, hstate, hpasses⟩ := step_iff.mp hstep
  obtain ⟨t, ht, rfl⟩ := (h tr).mp hmem
  obtain ⟨p, j⟩ := v
  obtain rfl : p = t := hstate
  obtain rfl : i = j := hpasses
  exact ⟨p, ht, rfl⟩

theorem jumps_singleton (h : a.out q = [.epsilon t]) : a.Jumps q {t} := by
  intro tr
  rw [h, List.mem_singleton]
  simp

theorem jumps_pair (h : a.out q = [.epsilon t, .epsilon m]) : a.Jumps q {t, m} := by
  intro tr
  rw [h]
  simp

/-! ## Single states -/

/-- The fragment without states, entered at its exit. -/
theorem Realizes.skip (a : Automaton) (x : Text) (exit : Nat) :
    a.Realizes x ∅ {exit} exit Eq where
  exit_not_mem := Set.notMem_empty exit
  step := fun _ _ hu => absurd hu (Set.notMem_empty _)
  entry := fun _ hq => Or.inr hq
  leads_iff := fun i j => by
    constructor
    · rintro ⟨q, rfl, hleads⟩
      have heq := hleads.eq_of_stuck fun _ hstep => Set.notMem_empty _ hstep.1
      exact congrArg Place.offset heq
    · rintro rfl
      exact ⟨exit, rfl, .refl⟩

/-- A state with one transition, which leads to the exit. -/
theorem Realizes.transition {tr : Transition} (hout : a.out q = [tr]) (hne : tr.target ≠ q) :
    a.Realizes x {q} {q} tr.target (tr.Passes x a.flags) := by
  have hstep : ∀ i v, a.Step x ⟨q, i⟩ v ↔
      v.state = tr.target ∧ tr.Passes x a.flags i v.offset := by
    intro i v
    rw [step_iff, hout]
    simp
  refine ⟨⟨hne, ?_⟩, fun _ hq => Or.inl hq, ?_⟩
  · rintro ⟨_, i⟩ v rfl hv
    exact Or.inr ((hstep i v).mp hv).1
  · intro i j
    constructor
    · rintro ⟨_, rfl, hleads⟩
      rcases Relation.ReflTransGen.cases_head hleads with heq | ⟨⟨t, k⟩, ⟨_, hfirst⟩, hrest⟩
      · exact absurd (congrArg Place.state heq).symm hne
      · obtain ⟨rfl, hpasses⟩ := (hstep i _).mp hfirst
        obtain ⟨rfl⟩ := Leads.eq_of_stuck (fun _ h => hne h.1) hrest
        exact hpasses
    · intro hpasses
      exact ⟨q, rfl, .single ⟨rfl, (hstep i _).mpr ⟨rfl, hpasses⟩⟩⟩

/-! ## Fragments put together -/

theorem Realizes.congr (h : a.Realizes x S E exit R) (hR : ∀ i j, R i j ↔ R₁ i j) :
    a.Realizes x S E exit R₁ :=
  { h with leads_iff := fun i j => (h.leads_iff i j).trans (hR i j) }

/-- One fragment behind the other: the exit of the first is the entry of the second. -/
theorem Realizes.compose (h₁ : a.Realizes x S₁ E m R₁) (h₂ : a.Realizes x S₂ {m} exit R₂)
    (hexit : exit ∉ S₁) : a.Realizes x (S₁ ∪ S₂) E exit (Relation.Comp R₁ R₂) where
  exit_not_mem := fun h => h.elim hexit h₂.exit_not_mem
  step := by
    intro u v hu hstep
    rcases hu with hu | hu
    · rcases h₁.step u v hu hstep with hv | hv
      · exact Or.inl (Or.inl hv)
      · rcases h₂.entry m rfl with hm | hm
        · exact Or.inl (Or.inr (hv ▸ hm))
        · exact Or.inr (hv.trans hm)
    · rcases h₂.step u v hu hstep with hv | hv
      · exact Or.inl (Or.inr hv)
      · exact Or.inr hv
  entry := by
    intro q hq
    rcases h₁.entry q hq with hq | rfl
    · exact Or.inl (Or.inl hq)
    · rcases h₂.entry q rfl with hm | hm
      · exact Or.inl (Or.inr hm)
      · exact Or.inr hm
  leads_iff := fun i j => by
    constructor
    · rintro ⟨q, hq, hleads⟩
      obtain ⟨k, hfront, hback⟩ := hleads.split h₁.toClosed (h₁.entry q hq) hexit
      have hback' := hback.confine h₂.toClosed (h₂.entry m rfl)
        fun _ _ h => h.1.elim hexit h₂.exit_not_mem
      exact ⟨k, (h₁.leads_iff i k).mp ⟨q, hq, hfront⟩, (h₂.leads_iff k j).mp ⟨m, rfl, hback'⟩⟩
    · rintro ⟨k, hfront, hback⟩
      obtain ⟨q, hq, hfront⟩ := (h₁.leads_iff i k).mpr hfront
      obtain ⟨_, rfl, hback⟩ := (h₂.leads_iff k j).mpr hback
      exact ⟨q, hq, (hfront.mono Set.subset_union_left).trans
        (hback.mono Set.subset_union_right)⟩

/-- Two fragments with the same exit, side by side. -/
theorem Realizes.union (h₁ : a.Realizes x S₁ E₁ exit R₁) (h₂ : a.Realizes x S₂ E₂ exit R₂) :
    a.Realizes x (S₁ ∪ S₂) (E₁ ∪ E₂) exit fun i j => R₁ i j ∨ R₂ i j where
  exit_not_mem := fun h => h.elim h₁.exit_not_mem h₂.exit_not_mem
  step := by
    intro u v hu hstep
    rcases hu with hu | hu
    · exact (h₁.step u v hu hstep).imp_left Or.inl
    · exact (h₂.step u v hu hstep).imp_left Or.inr
  entry := by
    intro q hq
    rcases hq with hq | hq
    · exact (h₁.entry q hq).imp_left Or.inl
    · exact (h₂.entry q hq).imp_left Or.inr
  leads_iff := fun i j => by
    have hstuck : ∀ k w, ¬ (exit ∈ S₁ ∪ S₂ ∧ a.Step x ⟨exit, k⟩ w) :=
      fun _ _ h => h.1.elim h₁.exit_not_mem h₂.exit_not_mem
    constructor
    · rintro ⟨q, hq | hq, hleads⟩
      · exact Or.inl ((h₁.leads_iff i j).mp
          ⟨q, hq, hleads.confine h₁.toClosed (h₁.entry q hq) hstuck⟩)
      · exact Or.inr ((h₂.leads_iff i j).mp
          ⟨q, hq, hleads.confine h₂.toClosed (h₂.entry q hq) hstuck⟩)
    · rintro (hR | hR)
      · obtain ⟨q, hq, hleads⟩ := (h₁.leads_iff i j).mpr hR
        exact ⟨q, Or.inl hq, hleads.mono Set.subset_union_left⟩
      · obtain ⟨q, hq, hleads⟩ := (h₂.leads_iff i j).mpr hR
        exact ⟨q, Or.inr hq, hleads.mono Set.subset_union_right⟩

/-- A state in front of a fragment that jumps to its entries. -/
theorem Realizes.jump (h : a.Realizes x S E exit R) (hjump : a.Jumps q E) (hne : exit ≠ q) :
    a.Realizes x (insert q S) {q} exit R where
  exit_not_mem := fun hmem => hmem.elim hne h.exit_not_mem
  step := by
    rintro ⟨p, i⟩ v (rfl | hu) hstep
    · obtain ⟨t, ht, rfl⟩ := hjump.of_step hstep
      exact (h.entry t ht).imp_left Or.inr
    · exact (h.step _ v hu hstep).imp_left Or.inr
  entry := fun _ hq => Or.inl (Or.inl hq)
  leads_iff := fun i j => by
    constructor
    · rintro ⟨_, rfl, hleads⟩
      rcases Relation.ReflTransGen.cases_head hleads with heq | ⟨w, ⟨_, hfirst⟩, hrest⟩
      · exact absurd (congrArg Place.state heq).symm hne
      · obtain ⟨t, ht, rfl⟩ := hjump.of_step hfirst
        have hrest' := Leads.confine h.toClosed hrest (h.entry t ht)
          fun _ _ hmem => hmem.1.elim hne h.exit_not_mem
        exact (h.leads_iff i j).mp ⟨t, ht, hrest'⟩
    · intro hR
      obtain ⟨t, ht, hleads⟩ := (h.leads_iff i j).mpr hR
      exact ⟨q, rfl, .head ⟨Or.inl rfl, hjump.silent ht⟩ (hleads.mono (Set.subset_insert q S))⟩

/-- The exit of a fragment, when it jumps on, belongs to a longer fragment. -/
theorem Realizes.leave (h : a.Realizes x S E m R) (hjump : a.Jumps m {exit}) (hne : exit ≠ m)
    (hexit : exit ∉ S) : a.Realizes x (S ∪ {m}) E exit R := by
  have hlast : a.Realizes x {m} {m} exit Eq := by
    have := (Realizes.skip a x exit).jump hjump hne
    rwa [insert_empty_eq] at this
  exact (h.compose hlast hexit).congr fun i j => by simp [Relation.Comp]

/-- A fragment in front of which a state may jump to the exit instead. -/
theorem Realizes.optional {b : Nat} (h : a.Realizes x S {b} m R) (hq : a.Jumps q {b, exit})
    (hm : a.Jumps m {exit}) (hneq : exit ≠ q) (hnem : exit ≠ m) (hexit : exit ∉ S) :
    a.Realizes x (insert q (S ∪ {m})) {q} exit (Relation.ReflGen R) := by
  have hbranches := (h.leave hm hnem hexit).union (.skip a x exit)
  rw [Set.union_empty, Set.singleton_union] at hbranches
  refine (hbranches.jump hq hneq).congr ?_
  intro i j
  rw [Relation.reflGen_iff, or_comm, eq_comm]

/-! ## Loops

The states of a loop are a body with the one entry `b` and the exit `m`, and control
states `C`, the exit `m` among them.  A control state jumps to the exit of the loop
and to one other state, from where a pass through the body begins.
-/

section Loop

variable {C : Set Nat} {b : Nat}

/-- What lies between a place in a loop and the exit of the loop: a number of passes,
the first of which may be under way. -/
theorem Realizes.of_leads_loop (h : a.Realizes x S {b} m R) (hm : m ∈ C) (hexit : exit ∉ S ∪ C)
    (hjump : ∀ q ∈ C, ∃ n, a.Jumps q {n, exit} ∧ (n = b ∨ n ∈ C))
    (hleads : a.Leads x (S ∪ C) u ⟨exit, j⟩) :
    (u.state ∈ C ∨ u.state = exit → Relation.ReflTransGen R u.offset j) ∧
      (u.state ∈ S → ∃ k, a.Leads x S u ⟨m, k⟩ ∧ Relation.ReflTransGen R k j) := by
  induction hleads using Relation.ReflTransGen.head_induction_on with
  | refl => exact ⟨fun _ => .refl, fun hmem => absurd (Or.inl hmem) hexit⟩
  | @head u v hstep _ ih =>
      obtain ⟨hctrl, hbody⟩ := ih
      obtain ⟨q, i⟩ := u
      constructor
      · rintro (hq | rfl)
        · obtain ⟨n, hn, hnext⟩ := hjump q hq
          obtain ⟨t, rfl | rfl, rfl⟩ := hn.of_step hstep.2
          · rcases hnext with rfl | hC
            · -- A pass begins.  The body may have no states, and then it ends at once.
              rcases h.entry t rfl with ht | rfl
              · obtain ⟨k, hfront, hback⟩ := hbody ht
                exact .head ((h.leads_iff i k).mp ⟨t, rfl, hfront⟩) hback
              · exact hctrl (Or.inl hm)
            · exact hctrl (Or.inl hC)
          · exact hctrl (Or.inr rfl)
        · exact absurd hstep.1 hexit
      · intro hu
        rcases h.step _ v hu hstep.2 with hv | hv
        · obtain ⟨k, hfront, hback⟩ := hbody hv
          exact ⟨k, .head ⟨hu, hstep.2⟩ hfront, hback⟩
        · obtain ⟨p, k⟩ := v
          obtain rfl : p = m := hv
          exact ⟨k, .single ⟨hu, hstep.2⟩, hctrl (Or.inl hm)⟩

/-- A loop makes any number of passes through its body. -/
theorem Realizes.loop (h : a.Realizes x S {b} m R) (hm : m ∈ C) (hexit : exit ∉ S ∪ C)
    (hjump : ∀ q ∈ C, ∃ n, a.Jumps q {n, exit} ∧ (n = b ∨ n ∈ C))
    (hback : ∀ q ∈ C, ∀ i, a.Leads x C ⟨q, i⟩ ⟨b, i⟩) (hq : q ∈ C) :
    a.Realizes x (S ∪ C) {q} exit (Relation.ReflTransGen R) where
  exit_not_mem := hexit
  step := by
    rintro ⟨p, i⟩ v (hp | hp) hstep
    · rcases h.step _ v hp hstep with hv | hv
      · exact Or.inl (Or.inl hv)
      · exact Or.inl (Or.inr (hv ▸ hm))
    · obtain ⟨n, hn, hnext⟩ := hjump p hp
      obtain ⟨t, rfl | rfl, rfl⟩ := hn.of_step hstep
      · rcases hnext with rfl | hC
        · rcases h.entry t rfl with ht | rfl
          · exact Or.inl (Or.inl ht)
          · exact Or.inl (Or.inr hm)
        · exact Or.inl (Or.inr hC)
      · exact Or.inr rfl
  entry := by
    rintro _ rfl
    exact Or.inl (Or.inr hq)
  leads_iff := fun i j => by
    constructor
    · rintro ⟨_, rfl, hleads⟩
      exact (h.of_leads_loop hm hexit hjump hleads).1 (Or.inl hq)
    · intro hR
      refine ⟨q, rfl, ?_⟩
      induction hR using Relation.ReflTransGen.head_induction_on generalizing q with
      | refl =>
          obtain ⟨n, hn, _⟩ := hjump q hq
          exact .single ⟨Or.inr hq, hn.silent (Or.inr rfl)⟩
      | head hpass _ ih =>
          obtain ⟨_, rfl, hbody⟩ := (h.leads_iff _ _).mpr hpass
          exact ((hback q hq _).mono Set.subset_union_right).trans
            ((hbody.mono Set.subset_union_left).trans (ih hm))

end Loop

/-- A fragment whose exit leads back to its entry. -/
theorem Realizes.plus {b : Nat} (h : a.Realizes x S {b} m R) (hm : a.Jumps m {b, exit})
    (hne : exit ≠ m) (hexit : exit ∉ S) :
    a.Realizes x (S ∪ {m}) {b} exit (Relation.TransGen R) := by
  have hloop : a.Realizes x (S ∪ {m}) {m} exit (Relation.ReflTransGen R) := by
    refine h.loop rfl (fun hmem => hmem.elim hexit hne) ?_ ?_ rfl
    · rintro _ rfl
      exact ⟨b, hm, Or.inl rfl⟩
    · rintro _ rfl i
      exact .single ⟨rfl, hm.silent (Or.inl rfl)⟩
  have hall := (h.compose hloop hexit).congr fun i j => Relation.TransGen.head'_iff.symm
  rwa [← Set.union_assoc, Set.union_self] at hall

/-- A fragment whose exit leads back to a state that may pass it by. -/
theorem Realizes.star {b : Nat} (h : a.Realizes x S {b} m R) (hq : a.Jumps q {b, exit})
    (hm : a.Jumps m {q, exit}) (hneq : exit ≠ q) (hnem : exit ≠ m) (hexit : exit ∉ S) :
    a.Realizes x (S ∪ {q, m}) {q} exit (Relation.ReflTransGen R) := by
  have hfirst : ∀ i, a.Leads x {q, m} ⟨q, i⟩ ⟨b, i⟩ := fun i =>
    .single ⟨Or.inl rfl, hq.silent (Or.inl rfl)⟩
  refine h.loop (Or.inr rfl) ?_ ?_ ?_ (Or.inl rfl)
  · rintro (hmem | rfl | rfl)
    · exact hexit hmem
    · exact hneq rfl
    · exact hnem rfl
  · rintro _ (rfl | rfl)
    · exact ⟨b, hq, Or.inl rfl⟩
    · exact ⟨q, hm, Or.inr (Or.inl rfl)⟩
  · rintro _ (rfl | rfl) i
    · exact hfirst i
    · exact .head ⟨Or.inr rfl, hm.silent (Or.inl rfl)⟩ (hfirst i)

end RegexEngine.Automaton
