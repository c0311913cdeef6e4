/-
# `Text.Boundary` — where symbols begin

A text is cut into symbols from some offset on by reading one symbol after the
other.  `Text.Reads` is one reading step as a relation between offsets, and
`Text.Boundary x f` holds of the offsets that such steps reach from `f`.

The library cuts texts in two ways, all at once (`Text.symbols`) and symbol by
symbol (`Text.symbolAt`).  `symbolsFrom_of_lt` says that they agree at every
offset, inside a pair as well: the symbols from an offset on are the one that
is read there and then the symbols from its end on.

A step is a function of its start, so the boundaries from one offset are in
line: of two of them the later one is reached from the earlier one.
-/
import Mathlib.Logic.Relation
import RegexEngine.Text.Basic

namespace RegexEngine

namespace Symbol

theorem width_le_two (c : Nat) : width c ≤ 2 := by
  unfold width; split <;> decide

/-- A unit is a symbol of width one. -/
theorem width_toNat (u : UInt16) : width u.toNat = 1 := by
  have := u.toNat_lt
  rw [width, if_neg (by omega)]

/-- A pair is a symbol of width two. -/
theorem width_join (u v : UInt16) : width (Surrogate.join u v) = 2 := by
  rw [width, if_pos]
  unfold Surrogate.join
  omega

/-- The bare count and the list of the symbols agree.  Behind a high surrogate
the count has already counted the unit that a low one would join. -/
theorem count_eq_length_ofUnits (units : List UInt16) :
    count false units = (ofUnits units).length := by
  fun_induction ofUnits units with
  | case1 => rfl
  | case2 u => simp [count]
  | case3 u v rest h ih =>
      obtain ⟨hu, hv⟩ := Bool.and_eq_true_iff.mp h
      simp only [count, hu, hv, Bool.false_and, Bool.and_self, Bool.false_eq_true, if_false,
        if_true, ih, List.length_cons]
      omega
  | case4 u v rest h ih =>
      rw [List.length_cons, ← ih]
      have h' : (Surrogate.isHigh u && Surrogate.isLow v) = false := Bool.eq_false_iff.mpr h
      simp only [count, h', Bool.false_and, Bool.false_eq_true, if_false]
      omega

end Symbol

namespace Text

/-- The symbol `c` stands at offset `i` and ends at offset `j`. -/
def Reads (x : Text) (i c j : Nat) : Prop :=
  ∃ inside : i < x.length, x.symbolAt i inside = c ∧ i + Symbol.width c = j

/-- Some symbol reaches from offset `i` to offset `j`. -/
def Next (x : Text) (i j : Nat) : Prop := ∃ c, x.Reads i c j

/-- Reading whole symbols from offset `f` on leads to offset `i`. -/
def Boundary (x : Text) (f i : Nat) : Prop := Relation.ReflTransGen x.Next f i

/-- The symbols from an offset to the end. -/
def symbolsFrom (x : Text) (i : Nat) : List Nat := Symbol.ofUnits (x.units.toList.drop i)

variable {x : Text} {i j k c d f : Nat}

/-! ## Reading one symbol -/

theorem reads_symbolAt (h : i < x.length) :
    x.Reads i (x.symbolAt i h) (i + Symbol.width (x.symbolAt i h)) :=
  ⟨h, rfl, rfl⟩

theorem Reads.lt (h : x.Reads i c j) : i < j := by
  obtain ⟨_, rfl, rfl⟩ := h
  have := Symbol.width_pos (x.symbolAt i ‹_›)
  omega

/-- What is read at an offset, and where it ends, is determined by the offset. -/
theorem Reads.unique (h : x.Reads i c j) (h' : x.Reads i d k) : c = d ∧ j = k := by
  obtain ⟨_, rfl, rfl⟩ := h
  obtain ⟨_, rfl, rfl⟩ := h'
  exact ⟨rfl, rfl⟩

/-- Inside the text there is a first unit from an offset on. -/
theorem exists_drop_units (h : i < x.length) :
    ∃ u rest, x.units.toList.drop i = u :: rest ∧ x.units.toList.drop (i + 1) = rest :=
  ⟨_, _, List.drop_eq_getElem_cons h, rfl⟩

/-- What is read at an offset depends on the units from there on. -/
theorem symbolAt_of_drop {u : UInt16} {rest : List UInt16} (h : i < x.length)
    (hdrop : x.units.toList.drop i = u :: rest) :
    x.symbolAt i h =
      if Surrogate.isHigh u && rest.head?.any Surrogate.isLow then
        Surrogate.join u (rest.head?.getD 0)
      else u.toNat := by
  have hi : i < x.units.size := h
  have hu : x.units[i] = u := by
    have hhead := congrArg List.head? hdrop
    rw [List.head?_drop, List.head?_cons, Array.getElem?_toList] at hhead
    exact Option.some.inj ((Array.getElem?_eq_getElem hi).symm.trans hhead)
  have hnext : x.units[i + 1]? = rest.head? := by
    have htail := congrArg List.tail hdrop
    rw [List.tail_drop, List.tail_cons] at htail
    rw [← htail, List.head?_drop, Array.getElem?_toList]
  have hat : x.symbolAt i h =
      if Surrogate.isHigh x.units[i] then
        x.units[i + 1]?.elim x.units[i].toNat fun v =>
          if Surrogate.isLow v then Surrogate.join x.units[i] v else x.units[i].toNat
      else x.units[i].toNat := by
    unfold symbolAt
    cases x.units[i + 1]? <;> rfl
  rw [hat, hu, hnext]
  cases Surrogate.isHigh u <;> cases rest <;> simp

/-- Reading at an offset takes the first of the symbols from there on. -/
theorem symbolsFrom_of_lt (h : i < x.length) :
    x.symbolsFrom i =
      x.symbolAt i h :: x.symbolsFrom (i + Symbol.width (x.symbolAt i h)) := by
  obtain ⟨u, rest, hdrop, hrest⟩ := exists_drop_units h
  have htwo : x.units.toList.drop (i + 2) = rest.drop 1 := by rw [← hrest, List.drop_drop]
  have hat := symbolAt_of_drop h hdrop
  unfold symbolsFrom
  rw [hdrop]
  cases rest with
  | nil =>
      have hat' : x.symbolAt i h = u.toNat := by simpa using hat
      rw [hat', Symbol.width_toNat, hrest, Symbol.ofUnits, Symbol.ofUnits]
  | cons v rest =>
      rw [Symbol.ofUnits]
      by_cases hpair : (Surrogate.isHigh u && Surrogate.isLow v) = true
      · have hat' : x.symbolAt i h = Surrogate.join u v := by simpa [hpair] using hat
        rw [if_pos hpair, hat', Symbol.width_join, htwo, List.drop_one, List.tail_cons]
      · have hat' : x.symbolAt i h = u.toNat := by
          rw [hat, if_neg (by simpa using hpair)]
        rw [if_neg hpair, hat', Symbol.width_toNat, hrest]

theorem symbolsFrom_of_ge (h : x.length ≤ i) : x.symbolsFrom i = [] := by
  have : x.units.size ≤ i := h
  rw [symbolsFrom, List.drop_eq_nil_of_le (by rwa [Array.length_toList]), Symbol.ofUnits]

theorem symbolsFrom_zero : x.symbolsFrom 0 = x.symbols := rfl

/-- The symbols from an offset on begin with the one that is read there. -/
theorem Reads.symbolsFrom (h : x.Reads i c j) : x.symbolsFrom i = c :: x.symbolsFrom j := by
  obtain ⟨inside, rfl, rfl⟩ := h
  exact symbolsFrom_of_lt inside

/-- The first of the symbols from an offset on is what is read there. -/
theorem exists_reads_of_symbolsFrom {cs : List Nat} (h : x.symbolsFrom i = c :: cs) :
    ∃ j, x.Reads i c j ∧ x.symbolsFrom j = cs := by
  rcases Nat.lt_or_ge i x.length with hlt | hge
  · rw [symbolsFrom_of_lt hlt] at h
    obtain ⟨rfl, hrest⟩ := List.cons.inj h
    exact ⟨_, reads_symbolAt hlt, hrest⟩
  · rw [symbolsFrom_of_ge hge] at h
    cases h

theorem symbolsFrom_eq_nil_iff (hi : i ≤ x.length) : x.symbolsFrom i = [] ↔ i = x.length := by
  constructor
  · intro h
    rcases Nat.lt_or_eq_of_le hi with hlt | heq
    · rw [symbolsFrom_of_lt hlt] at h
      cases h
    · exact heq
  · intro h
    exact symbolsFrom_of_ge (Nat.le_of_eq h.symm)

theorem symbolCount_eq (x : Text) : x.symbolCount = (x.symbolsFrom 0).length :=
  Symbol.count_eq_length_ofUnits _

/-- A symbol ends inside the text. -/
theorem Reads.le_length (h : x.Reads i c j) : j ≤ x.length := by
  obtain ⟨inside, rfl, rfl⟩ := h
  obtain ⟨u, rest, hdrop, hrest⟩ := exists_drop_units inside
  have hat := symbolAt_of_drop inside hdrop
  have hlen : x.length - i = rest.length + 1 := by
    have := congrArg List.length hdrop
    rwa [List.length_drop, Array.length_toList, List.length_cons] at this
  cases rest with
  | nil =>
      have hat' : x.symbolAt i inside = u.toNat := by simpa using hat
      rw [hat', Symbol.width_toNat]
      omega
  | cons v rest =>
      rw [List.length_cons] at hlen
      have := Symbol.width_le_two (x.symbolAt i inside)
      omega

/-! ## Boundaries -/

theorem Next.lt (h : x.Next i j) : i < j := by
  obtain ⟨c, hc⟩ := h
  exact hc.lt

theorem Next.unique (h : x.Next i j) (h' : x.Next i k) : j = k := by
  obtain ⟨c, hc⟩ := h
  obtain ⟨d, hd⟩ := h'
  exact (hc.unique hd).2

theorem Boundary.le (h : x.Boundary f i) : f ≤ i := by
  induction h with
  | refl => exact Nat.le_refl f
  | tail _ hnext ih => exact Nat.le_trans ih (Nat.le_of_lt hnext.lt)

theorem Boundary.le_length (h : x.Boundary f i) (hf : f ≤ x.length) : i ≤ x.length := by
  cases h with
  | refl => exact hf
  | tail _ hnext =>
      obtain ⟨c, hc⟩ := hnext
      exact hc.le_length

/-- The boundaries behind an offset are those from the end of its symbol on. -/
theorem Boundary.of_next (hnext : x.Next i k) (h : x.Boundary i j) (hlt : i < j) :
    x.Boundary k j := by
  rcases Relation.ReflTransGen.cases_head h with rfl | ⟨k', hnext', hrest⟩
  · exact absurd hlt (Nat.lt_irrefl i)
  · exact hnext.unique hnext' ▸ hrest

/-- Of two boundaries the later one is reached from the earlier one. -/
theorem Boundary.of_le (hi : x.Boundary f i) (hj : x.Boundary f j) (hle : i ≤ j) :
    x.Boundary i j := by
  induction hi with
  | refl => exact hj
  | tail _ hnext ih =>
      have := hnext.lt
      exact Boundary.of_next hnext (ih (by omega)) (by omega)

/-- Of the boundaries in front of the same one there is only one. -/
theorem Next.unique_start (hi : x.Boundary f i) (hk : x.Boundary f k) (hij : x.Next i j)
    (hkj : x.Next k j) : i = k := by
  rcases Nat.lt_trichotomy i k with hlt | heq | hlt
  · have := ((hi.of_le hk (Nat.le_of_lt hlt)).of_next hij hlt).le
    have := hkj.lt
    omega
  · exact heq
  · have := ((hk.of_le hi (Nat.le_of_lt hlt)).of_next hkj hlt).le
    have := hij.lt
    omega

/-- The symbols from a boundary on are fewer the later it is. -/
theorem length_symbolsFrom_lt (h : x.Boundary i j) (hlt : i < j) :
    (x.symbolsFrom j).length < (x.symbolsFrom i).length := by
  induction h with
  | refl => exact absurd hlt (Nat.lt_irrefl i)
  | tail hbefore hnext ih =>
      obtain ⟨c, hc⟩ := hnext
      rw [hc.symbolsFrom, List.length_cons] at ih
      rcases Nat.eq_or_lt_of_le (Boundary.le hbefore) with rfl | hlt'
      · rw [hc.symbolsFrom, List.length_cons]
        exact Nat.lt_succ_self _
      · have := ih hlt'
        omega

end Text

end RegexEngine
