/-
# `SymbolRange.Canonical` — what a canonical list of ranges is

Bringing a list of ranges into its canonical form keeps the symbols that the list
holds, and lookup by bisection is exact on the outcome.  Lookup asks for less than the
canonical form: ranges that ascend and do not overlap may touch
(`SymbolRange.Separated`), and a range without symbols does no harm as long as it is in
its place (`SymbolRange.Ordered`).  So `covers_normalize` holds of any list of ranges.

Sorting orders the ranges by their first symbols only, and a range may still lie
inside one in front of it.  Merging therefore carries the range that is being
extended, which begins no later than all that are left.
-/
import RegexEngine.Symbol.Range

namespace RegexEngine.SymbolRange

/-- The range has a symbol. -/
def Proper (r : SymbolRange) : Prop := r.first ≤ r.last

/-- Some range of the list holds the symbol. -/
def Holds (rs : List SymbolRange) (c : Nat) : Prop := ∃ r ∈ rs, r.contains c = true

/-- The ranges ascend, and none overlaps another. -/
structure Separated (rs : List SymbolRange) : Prop where
  proper : ∀ r ∈ rs, r.Proper
  apart : rs.Pairwise fun r s => r.last < s.first

/-- The ranges ascend, with a symbol strictly between any two. -/
structure Canonical (rs : List SymbolRange) : Prop where
  proper : ∀ r ∈ rs, r.Proper
  apart : rs.Pairwise fun r s => r.last + 1 < s.first

/-- Ranges ascend by their first symbols. -/
def Ascending (rs : List SymbolRange) : Prop := rs.Pairwise fun r s => r.first ≤ s.first

/-- Of two ranges, the one behind begins no earlier than the one in front does, and
behind its end.  Some of them may have no symbol. -/
def Ordered (rs : List SymbolRange) : Prop :=
  rs.Pairwise fun r s => r.first ≤ s.first ∧ r.last < s.first

variable {r s : SymbolRange} {rs : List SymbolRange} {c : Nat}

instance : DecidablePred Proper := fun r => inferInstanceAs (Decidable (r.first ≤ r.last))

instance : DecidablePred Separated := fun rs =>
  decidable_of_iff ((∀ r ∈ rs, r.Proper) ∧ rs.Pairwise fun r s => r.last < s.first)
    ⟨fun ⟨hproper, hapart⟩ => ⟨hproper, hapart⟩, fun h => ⟨h.proper, h.apart⟩⟩

theorem contains_iff : r.contains c = true ↔ r.first ≤ c ∧ c ≤ r.last := by
  simp [contains]

theorem holds_cons : Holds (r :: rs) c ↔ (r.first ≤ c ∧ c ≤ r.last) ∨ Holds rs c := by
  simp only [Holds, List.mem_cons, or_and_right, exists_or, exists_eq_left, contains_iff]

/-! ## Sorting -/

theorem first_le_of_precedes (h : r.precedes s = true) : r.first ≤ s.first := by
  simp only [precedes, Bool.or_eq_true, Bool.and_eq_true, decide_eq_true_eq, beq_iff_eq] at h
  omega

theorem first_le_of_not_precedes (h : ¬ r.precedes s = true) : s.first ≤ r.first := by
  simp only [precedes, Bool.or_eq_true, Bool.and_eq_true, decide_eq_true_eq, beq_iff_eq] at h
  omega

theorem ascending_orderedInsert (h : Ascending rs) : Ascending (orderedInsert r rs) := by
  induction rs with
  | nil => exact List.pairwise_singleton _ _
  | cons t rest ih =>
      obtain ⟨ht, hrest⟩ := List.pairwise_cons.mp h
      unfold orderedInsert
      split
      · rename_i hrt
        have hle := first_le_of_precedes hrt
        refine List.pairwise_cons.mpr ⟨?_, h⟩
        intro s hs
        rcases List.mem_cons.mp hs with rfl | hs
        · exact hle
        · exact Nat.le_trans hle (ht s hs)
      · rename_i hrt
        refine List.pairwise_cons.mpr ⟨?_, ih hrest⟩
        intro s hs
        rcases mem_orderedInsert.mp hs with rfl | hs
        · exact first_le_of_not_precedes hrt
        · exact ht s hs

theorem ascending_sort (rs : List SymbolRange) : Ascending (sort rs) := by
  induction rs with
  | nil => exact .nil
  | cons r rest ih => exact ascending_orderedInsert ih

/-! ## Merging -/

/-- Extending the range in front leaves its first symbol in place. -/
theorem Ascending.extend (h : Ascending (r :: s :: rs)) (last : Nat) :
    Ascending (⟨r.first, last⟩ :: rs) := by
  obtain ⟨hr, hrest⟩ := List.pairwise_cons.mp h
  exact List.pairwise_cons.mpr ⟨fun u hu => hr u (List.mem_cons_of_mem s hu), hrest.tail⟩

/-- A range that the one in front of it touches is taken into it. -/
theorem holds_extend (htouch : s.first ≤ r.last + 1) (hle : r.first ≤ s.first) :
    Holds (⟨r.first, max r.last s.last⟩ :: rs) c ↔ Holds (r :: s :: rs) c := by
  rw [holds_cons, holds_cons, holds_cons, ← or_assoc]
  refine or_congr_left ?_
  dsimp only
  omega

/-- Merging starts no earlier than the range in front, whose end may have moved. -/
theorem first_le_of_mem_mergeInto (h : Ascending (r :: rs))
    (hs : s ∈ mergeInto r rs) : r.first ≤ s.first := by
  fun_induction mergeInto r rs with
  | case1 r => exact Nat.le_of_eq (congrArg _ (List.mem_singleton.mp hs).symm)
  | case2 r t rest htouch ih =>
      exact ih (h.extend _) hs
  | case3 r t rest htouch ih =>
      obtain ⟨hr, hrest⟩ := List.pairwise_cons.mp h
      rcases List.mem_cons.mp hs with rfl | hs
      · exact Nat.le_refl _
      · exact Nat.le_trans (hr t List.mem_cons_self) (ih hrest hs)

theorem holds_mergeInto (h : Ascending (r :: rs)) :
    Holds (mergeInto r rs) c ↔ Holds (r :: rs) c := by
  fun_induction mergeInto r rs with
  | case1 r => exact Iff.rfl
  | case2 r t rest htouch ih =>
      have hle := (List.pairwise_cons.mp h).1 t List.mem_cons_self
      rw [ih (h.extend _), holds_extend htouch hle]
  | case3 r t rest htouch ih =>
      rw [holds_cons, holds_cons, ih (List.pairwise_cons.mp h).2]

/-- Behind a range that merging has closed, the next one leaves out a symbol. -/
theorem pairwise_mergeInto (h : Ascending (r :: rs)) :
    (mergeInto r rs).Pairwise fun s t => s.first ≤ t.first ∧ s.last + 1 < t.first := by
  fun_induction mergeInto r rs with
  | case1 r => exact List.pairwise_singleton _ _
  | case2 r t rest htouch ih => exact ih (h.extend _)
  | case3 r t rest htouch ih =>
      obtain ⟨hr, hrest⟩ := List.pairwise_cons.mp h
      refine List.pairwise_cons.mpr ⟨?_, ih hrest⟩
      intro u hu
      have hle := hr t List.mem_cons_self
      have hnext := first_le_of_mem_mergeInto hrest hu
      omega

theorem proper_mergeInto (hproper : ∀ s ∈ r :: rs, s.Proper) :
    ∀ s ∈ mergeInto r rs, s.Proper := by
  fun_induction mergeInto r rs with
  | case1 r => exact hproper
  | case2 r t rest htouch ih =>
      obtain ⟨hr, hrest⟩ := List.forall_mem_cons.mp hproper
      refine ih (List.forall_mem_cons.mpr ⟨?_, (List.forall_mem_cons.mp hrest).2⟩)
      exact Nat.le_trans hr (Nat.le_max_left _ _)
  | case3 r t rest htouch ih =>
      obtain ⟨hr, hrest⟩ := List.forall_mem_cons.mp hproper
      exact List.forall_mem_cons.mpr ⟨hr, ih hrest⟩

theorem holds_merge (h : Ascending rs) : Holds (merge rs) c ↔ Holds rs c := by
  cases rs with
  | nil => exact Iff.rfl
  | cons r rest => exact holds_mergeInto h

theorem pairwise_merge (h : Ascending rs) :
    (merge rs).Pairwise fun s t => s.first ≤ t.first ∧ s.last + 1 < t.first := by
  cases rs with
  | nil => exact .nil
  | cons r rest => exact pairwise_mergeInto h

theorem proper_merge (hproper : ∀ s ∈ rs, s.Proper) : ∀ s ∈ merge rs, s.Proper := by
  cases rs with
  | nil => exact List.forall_mem_nil _
  | cons r rest => exact proper_mergeInto hproper

/-- The canonical form of proper ranges is canonical. -/
theorem canonical_normalize {rs : Array SymbolRange} (hproper : ∀ r ∈ rs.toList, r.Proper) :
    Canonical (normalize rs).toList where
  proper := proper_merge fun r hr => hproper r (mem_sort.mp hr)
  apart := (pairwise_merge (ascending_sort _)).imp And.right

theorem ordered_normalize (rs : Array SymbolRange) : Ordered (normalize rs).toList :=
  (pairwise_merge (ascending_sort _)).imp fun ⟨hfirst, hapart⟩ =>
    ⟨hfirst, Nat.lt_of_succ_lt hapart⟩

/-- The canonical form holds the same symbols. -/
theorem holds_normalize {rs : Array SymbolRange} :
    Holds (normalize rs).toList c ↔ Holds rs.toList c := by
  refine (holds_merge (ascending_sort _)).trans (exists_congr ?_)
  intro r
  rw [mem_sort]

/-! ## Lookup -/

theorem Canonical.separated (h : Canonical rs) : Separated rs where
  proper := h.proper
  apart := h.apart.imp fun hapart => Nat.lt_of_succ_lt hapart

theorem Separated.ordered (h : Separated rs) : Ordered rs :=
  List.Pairwise.imp_of_mem (fun hr _ hapart =>
    ⟨Nat.le_of_lt (Nat.lt_of_le_of_lt (h.proper _ hr) hapart), hapart⟩) h.apart

/-- Bisection finds a range that holds the symbol if there is one.  A symbol in front
of one range is in front of all behind it, and the other way round. -/
theorem coversWithin_iff {rs : Array SymbolRange} (h : Ordered rs.toList) (low high : Nat)
    (bound : high ≤ rs.size) :
    coversWithin rs c low high bound = true ↔
      ∃ i, low ≤ i ∧ ∃ hi : i < high, (rs[i]).contains c = true := by
  have hordered : ∀ i j (hi : i < rs.size) (hj : j < rs.size), i < j →
      (rs[i]).first ≤ (rs[j]).first ∧ (rs[i]).last < (rs[j]).first := fun i j hi hj hij => by
    have := List.pairwise_iff_getElem.mp h i j hi hj hij
    simp only [Array.getElem_toList] at this
    exact this
  fun_induction coversWithin rs c low high bound with
  | case1 low high bound hlt middle inside r hbefore ih =>
      refine ih.trans (exists_congr fun i => and_congr_right fun _ => ⟨?_, ?_⟩)
      · rintro ⟨hi, hc⟩
        exact ⟨Nat.lt_trans hi inside, hc⟩
      · rintro ⟨hi, hc⟩
        refine ⟨?_, hc⟩
        rw [contains_iff] at hc
        have hfirst : c < (rs[middle]).first := hbefore
        rcases Nat.lt_trichotomy i middle with hlt' | rfl | hgt
        · exact hlt'
        · exact absurd hc.1 (Nat.not_le.mpr hfirst)
        · have := hordered middle i (by omega) (by omega) hgt
          omega
  | case2 low high bound hlt middle inside r hbefore hbehind ih =>
      refine ih.trans (exists_congr fun i => ⟨?_, ?_⟩)
      · rintro ⟨hle, hi, hc⟩
        exact ⟨by omega, hi, hc⟩
      · rintro ⟨hle, hi, hc⟩
        refine ⟨?_, hi, hc⟩
        rw [contains_iff] at hc
        have hfirst : ¬ c < (rs[middle]).first := hbefore
        have hlast : (rs[middle]).last < c := hbehind
        rcases Nat.lt_trichotomy i middle with hlt' | rfl | hgt
        · have := hordered i middle (by omega) (by omega) hlt'
          omega
        · omega
        · exact hgt
  | case3 low high bound hlt middle inside r hbefore hbehind =>
      refine iff_of_true rfl ⟨middle, by omega, inside, contains_iff.mpr ?_⟩
      exact ⟨Nat.le_of_not_lt hbefore, Nat.le_of_not_lt hbehind⟩
  | case4 low high bound hge =>
      refine iff_of_false Bool.false_ne_true ?_
      rintro ⟨i, hle, hi, _⟩
      omega

/-- Lookup is exact on ranges in order. -/
theorem covers_iff {rs : Array SymbolRange} (h : Ordered rs.toList) :
    covers rs c = true ↔ Holds rs.toList c := by
  rw [covers, coversWithin_iff h]
  constructor
  · rintro ⟨i, _, hi, hc⟩
    exact ⟨_, Array.getElem_mem_toList hi, hc⟩
  · rintro ⟨r, hr, hc⟩
    obtain ⟨i, hi, rfl⟩ := List.mem_iff_getElem.mp hr
    exact ⟨i, Nat.zero_le _, hi, hc⟩

/-- In the canonical form, those symbols are found that the ranges hold as they are
written. -/
theorem covers_normalize {rs : Array SymbolRange} :
    covers (normalize rs) c = true ↔ Holds rs.toList c :=
  (covers_iff (ordered_normalize rs)).trans holds_normalize

end RegexEngine.SymbolRange
