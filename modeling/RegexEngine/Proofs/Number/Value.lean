/-
# `Number.firstOffset`, `Number.Below` — what a number means

A finite number is a rational one (`Binary64.value`).  As an offset it stands for
its integer part, and for zero if it is negative; what is not a number stands for
zero too, and infinity for an offset behind every text.  The library finds this
offset by cutting off a fraction of integers (`startOffset?_eq_some_iff`).

As a ceiling it is compared with counts (`Number.Below`), and ceilings with one
another (`Number.AtMost`).  What is not a number is below nothing, so that it is no
ceiling at all.  The library compares integers instead (`exceededBy_iff_below`), and
names the least positive count above a ceiling without looking for it
(`isLeast_leastAbove`).
-/
import Mathlib.Data.ENat.Basic
import Mathlib.Data.Rat.Floor
import Mathlib.Order.Bounds.Basic
import RegexEngine.Number.Basic

namespace RegexEngine

namespace Binary64

/-- The rational number that is meant. -/
def value (v : Binary64) : ℚ := v.significand * 2 ^ v.exponent

theorem value_eq (v : Binary64) : v.value = v.numerator / v.denominator := by
  unfold value numerator denominator
  rw [Nat.one_shiftLeft, Nat.one_shiftLeft]
  push_cast
  obtain ⟨n, hn | hn⟩ := Int.eq_nat_or_neg v.exponent
  · simp [hn]
  · simp [hn, div_eq_mul_inv]

/-- Cutting off the fraction toward zero and taking zero for a negative number is
taking the natural floor. -/
theorem toNat_truncate (v : Binary64) : v.truncate.toNat = ⌊v.value⌋₊ := by
  rw [← Int.floor_toNat, value_eq, Rat.floor_intCast_div_natCast, truncate]
  rcases Int.le_total 0 v.numerator with h | h
  · rw [Int.tdiv_eq_ediv_of_nonneg h]
  · -- Below zero the two divisions differ, but neither gives anything positive.
    have hdiv : v.numerator / (v.denominator : ℤ) ≤ 0 :=
      Int.ediv_nonpos_of_nonpos_of_neg h (Int.natCast_pos.mpr v.denominator_pos)
    have htdiv : v.numerator.tdiv v.denominator ≤ 0 := by
      have hneg : 0 ≤ (-v.numerator).tdiv v.denominator :=
        Int.tdiv_nonneg (Int.neg_nonneg_of_nonpos h) (Int.natCast_nonneg _)
      rw [Int.neg_tdiv] at hneg
      omega
    rw [Int.toNat_eq_zero.mpr hdiv, Int.toNat_eq_zero.mpr htdiv]

end Binary64

namespace Number

/-- The offset that a number stands for; infinity stands for one behind every
text. -/
def firstOffset : Number → ℕ∞
  | .notANumber => 0
  | .negativeInfinity => 0
  | .finite v => ⌊v.value⌋₊
  | .infinity => ⊤

theorem startOffset?_eq_some_iff {n : Number} {f : Nat} :
    n.startOffset? = some f ↔ n.firstOffset = f := by
  cases n with
  | notANumber => simp [startOffset?, truncate?, firstOffset, eq_comm]
  | negativeInfinity => simp [startOffset?, truncate?, firstOffset, eq_comm]
  | finite v => simp [startOffset?, truncate?, firstOffset, Binary64.toNat_truncate]
  | infinity => simp [startOffset?, firstOffset]

theorem startOffset?_eq_none_iff {n : Number} : n.startOffset? = none ↔ n.firstOffset = ⊤ := by
  cases n with
  | notANumber => simp [startOffset?, firstOffset]
  | negativeInfinity => simp [startOffset?, firstOffset]
  | finite v => simp [startOffset?, firstOffset]
  | infinity => simp [startOffset?, firstOffset]

/-! ## Ceilings -/

/-- The number is less than a count. -/
def Below : Number → ℕ → Prop
  | .notANumber, _ => False
  | .negativeInfinity, _ => True
  | .finite v, k => v.value < k
  | .infinity, _ => False

/-- The order of numbers; what is not a number is at most itself. -/
inductive AtMost : Number → Number → Prop
  | refl {n : Number} : AtMost n n
  | negativeInfinity {n : Number} : AtMost .negativeInfinity n
  | finite {v w : Binary64} : v.value ≤ w.value → AtMost (.finite v) (.finite w)
  | infinity {n : Number} : AtMost n .infinity

variable {n m : Number} {j k : ℕ}

theorem exceededBy_iff_below : n.exceededBy k = true ↔ n.Below k := by
  cases n with
  | notANumber => exact iff_of_false Bool.false_ne_true id
  | negativeInfinity => exact iff_of_true rfl trivial
  | finite v =>
      have hpos : (0 : ℚ) < v.denominator := Nat.cast_pos.mpr v.denominator_pos
      simp only [exceededBy, Below, Binary64.exceededBy, decide_eq_true_eq, v.value_eq,
        div_lt_iff₀ hpos]
      exact_mod_cast Iff.rfl
  | infinity => exact iff_of_false Bool.false_ne_true id

theorem Below.mono (h : n.Below j) (hle : j ≤ k) : n.Below k := by
  cases n with
  | notANumber => exact h
  | negativeInfinity => trivial
  | finite v => exact lt_of_lt_of_le (b := (j : ℚ)) h (Nat.cast_le.mpr hle)
  | infinity => exact h

/-- What lies above a number lies above every smaller one. -/
theorem AtMost.below (h : AtMost n m) (hk : m.Below k) : n.Below k := by
  cases h with
  | refl => exact hk
  | negativeInfinity => trivial
  | finite hle => exact lt_of_le_of_lt hle hk
  | infinity => exact absurd hk id

theorem exceededBy_mono (hle : j ≤ k) (h : n.exceededBy j = true) : n.exceededBy k = true :=
  exceededBy_iff_below.mpr ((exceededBy_iff_below.mp h).mono hle)

/-- Of the counts that exceed a number, `leastAbove` is the least. -/
theorem leastAbove_le_iff (h : n.exceededBy k = true) :
    n.leastAbove ≤ j ↔ n.exceededBy j = true := by
  cases n with
  | notANumber => cases h
  | negativeInfinity => exact iff_of_true (Nat.zero_le j) rfl
  | finite v =>
      rw [exceededBy, v.exceededBy_iff_floor_lt]
      show (v.floor + 1).toNat ≤ j ↔ _
      omega
  | infinity => cases h

/-- The least positive count above a number that some count exceeds. -/
theorem isLeast_leastAbove (h : n.Below k) :
    IsLeast {j | 0 < j ∧ n.Below j} (max 1 n.leastAbove) := by
  have hleast : ∀ j, n.leastAbove ≤ j ↔ n.Below j := fun j =>
    (leastAbove_le_iff (exceededBy_iff_below.mpr h)).trans exceededBy_iff_below
  constructor
  · exact ⟨Nat.le_max_left _ _, (hleast _).mp (Nat.le_max_right _ _)⟩
  · rintro j ⟨hpos, hj⟩
    exact Nat.max_le.mpr ⟨hpos, (hleast j).mpr hj⟩

end Number

end RegexEngine
